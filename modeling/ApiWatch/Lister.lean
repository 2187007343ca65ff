import ApiWatch.Enumerate

/-!
# The lister over the informer's store

Beside the informer, `NewAPIResourceInformer` returns a `resourceLister` over the informer's
store, and the reflector fills that store from each `List` answer: client-go replaces the
store's contents with the answer, filing each item under its key.  An item has no namespace,
so its key is its name, and of two items with one name the later stays.  `Get` looks a name
up with `GetByKey` and answers the `NotFound` of `apiresources` in the kubestellar meta group
when nothing is filed there.  `List` keeps the stored objects whose labels the selector
matches, in the order the loop over the store's map takes; no item `List` builds carries a
label.

What a client of the lister sees after the reflector stored a `List` answer: `Get` returns
the last item of each name and `NotFound` for every other name, and when the answer's names
are distinct `List` returns its items, each once and in some order, if the selector matches
an object without labels, and nothing otherwise.  With subresources the names are distinct
when the listed group versions are distinct and free of colons.
-/

namespace ApiWatch.Lister

open ApiWatch.Go ApiWatch.Schema ApiWatch.DefinerIndex ApiWatch.Enumerate
open ApiWatch.Metav1 (StatusError APIGroup)
open ApiWatch.Ksmetav1a1 (APIResource)

/-! ## The store -/

/-- The informer's store, client-go's `threadSafeStore`: the objects its map holds, in the
order the model keeps them.  An item's key is its name, and a key holds one object. -/
structure Store where
  objects : List APIResource
  keyed : (objects.map (·.name)).Nodup

/-- The store the informer starts with. -/
def Store.empty : Store := ⟨[], List.nodup_nil⟩

/-- `GetByKey(key)`: the object filed under the key.  The store's error is always nil. -/
def Store.getByKey (store : Store) (key : String) : Option APIResource :=
  store.objects.find? (·.name = key)

/-- Filing `obj` under its key, in place of the object filed there. -/
def Store.insert (store : Store) (obj : APIResource) : Store where
  objects := store.objects.filter (·.name ≠ obj.name) ++ [obj]
  keyed := by
    rw [List.map_append, List.nodup_append]
    refine ⟨store.keyed.sublist ((List.filter_sublist _).map _), List.nodup_singleton _, ?_⟩
    simp [List.disjoint_singleton]

/-- The store after the reflector's `Replace` with a `List` answer: each item filed under its
key in turn, and nothing else. -/
def replace (items : List APIResource) : Store := items.foldl Store.insert Store.empty

/-- A `labels.Set`: the value of each label key, none when the key is absent. -/
abbrev LabelSet := String → Option String

/-- A `labels.Selector`, through what `List` asks of it: `Matches`, whether it matches a label
set. -/
structure Selector where
  matchesLabels : LabelSet → Bool

/-- `resourceLister.List(selector)`: the stored objects, in the order the loop over the
store's map takes, whose `labels.Set(ar.Labels)` the selector matches.  That set is empty:
`specComplete` gives an item's `ObjectMeta` a name and a resource version and no labels. -/
def list (store : Store) (order : RangeOrder Unit) (selector : Selector) : List APIResource :=
  (order.visit () store.objects).filter fun _ => selector.matchesLabels fun _ => none

section Get

-- `ksmetav1a1.SchemeGroupVersion.Group`, declared outside this package
variable (schemeGroup : String)

/-- `resourceLister.Get(name)`: the object filed under the name, or `apierrors.NewNotFound`
of the resource `apiresources` in the meta group. -/
def get (store : Store) (name : String) : Except StatusError APIResource :=
  match store.getByKey name with
  | none => .error (.notFound ⟨schemeGroup, "apiresources"⟩ name)
  | some obj => .ok obj

end Get

/-! ## `Replace`, `GetByKey` and `List` -/

theorem getByKey_insert (store : Store) (obj : APIResource) (key : String) :
    (store.insert obj).getByKey key = if obj.name = key then some obj else store.getByKey key := by
  rw [Store.getByKey, Store.insert, List.find?_append, List.find?_filter]
  by_cases same : obj.name = key
  · subst same
    simp
  · rw [List.find?_singleton, if_neg (by simpa using same), Option.or_none, if_neg same]
    congr 1
    funext other
    by_cases named : other.name = key <;> simp [named, Ne.symm same]

theorem replace_append_singleton (items : List APIResource) (obj : APIResource) :
    replace (items ++ [obj]) = (replace items).insert obj := by
  rw [replace, List.foldl_append]
  rfl

/-- After the reflector's `Replace`, `GetByKey` finds the last item of the answer with the
key. -/
theorem getByKey_replace (items : List APIResource) (key : String) :
    (replace items).getByKey key = items.reverse.find? (·.name = key) := by
  induction items using List.reverseRecOn with
  | nil => rfl
  | append_singleton items obj ih =>
    rw [replace_append_singleton, getByKey_insert, ih, List.reverse_append, List.reverse_singleton,
      List.singleton_append, List.find?_cons]
    by_cases same : obj.name = key <;> simp [same]

/-- An answer with distinct names is stored whole: the store holds its items, each once. -/
theorem replace_perm {items : List APIResource} (distinct : (items.map (·.name)).Nodup) :
    (replace items).objects.Perm items := by
  induction items using List.reverseRecOn with
  | nil => exact .nil
  | append_singleton items obj ih =>
    rw [List.map_append, List.nodup_append] at distinct
    obtain ⟨distinct, -, fresh⟩ := distinct
    have stored := ih distinct
    have kept : (replace items).objects.filter (·.name ≠ obj.name) = (replace items).objects :=
      List.filter_eq_self.2 fun other mem => by
        have named := List.mem_map_of_mem (·.name) (stored.subset mem)
        simpa using fun same : other.name = obj.name =>
          fresh named (List.mem_singleton.2 same)
    rw [replace_append_singleton]
    show (_ ++ [obj]).Perm _
    rw [kept]
    exact stored.append_right [obj]

/-- `List` returns every stored object, in some order, when the selector matches an object
without labels, and nothing otherwise. -/
theorem list_perm (store : Store) (order : RangeOrder Unit) (selector : Selector) :
    (list store order selector).Perm
      (if selector.matchesLabels (fun _ => none) then store.objects else []) := by
  unfold list
  by_cases matched : selector.matchesLabels (fun _ => none)
  · rw [if_pos matched, List.filter_eq_self.2 fun _ _ => matched]
    exact order.visit_perm () store.objects
  · simp [matched]

section Serves

variable (schemeGroup : String)

theorem get_replace_of_mem {items : List APIResource} (distinct : (items.map (·.name)).Nodup)
    {item : APIResource} (mem : item ∈ items) :
    get schemeGroup (replace items) item.name = .ok item := by
  obtain ⟨found, foundAt⟩ : ∃ found, items.reverse.find? (·.name = item.name) = some found :=
    Option.isSome_iff_exists.1 (List.find?_isSome.2 ⟨item, List.mem_reverse.2 mem, by simp⟩)
  have same := List.inj_on_of_nodup_map distinct
    (List.mem_reverse.1 (List.mem_of_find?_eq_some foundAt)) mem
    (by simpa using List.find?_some foundAt)
  rw [get, getByKey_replace, foundAt, same]

theorem get_replace_of_not_mem {items : List APIResource} {name : String}
    (absent : name ∉ items.map (·.name)) :
    get schemeGroup (replace items) name = .error (.notFound ⟨schemeGroup, "apiresources"⟩ name) := by
  have none : items.reverse.find? (·.name = name) = none :=
    List.find?_eq_none.2 fun other mem named =>
      absent (List.mem_map.2 ⟨other, List.mem_reverse.1 mem, by simpa using named⟩)
  rw [get, getByKey_replace, none]

/-- After the reflector stores the answer of a `List` with subresources whose listed group
versions are distinct and colon-free, the lister serves that answer: `Get` returns each item
under its name and the `NotFound` of `apiresources` for every other name, and `List` returns
the items, each once and in some order, when the selector matches an object without labels,
and nothing otherwise. -/
theorem lister_serves_list (index : Index) (order : IterationOrder) (resourceVersionS : String)
    (feed : Discovery)
    (gvsDistinct : (feed.resources.filterMap (listedGroupVersion feed.groups)).Nodup)
    (clean : ∀ gv ∈ feed.resources.filterMap (listedGroupVersion feed.groups), ColonFree gv)
    (storeOrder : RangeOrder Unit) (selector : Selector) :
    ∃ items, listItems true index order resourceVersionS feed = some items ∧
      (∀ item ∈ items, get schemeGroup (replace items) item.name = .ok item) ∧
      (∀ name, name ∉ items.map (·.name) →
        get schemeGroup (replace items) name = .error (.notFound ⟨schemeGroup, "apiresources"⟩ name)) ∧
      (list (replace items) storeOrder selector).Perm
        (if selector.matchesLabels (fun _ => none) then items else []) := by
  obtain ⟨items, found, -, distinct⟩ :=
    listWithSubresourcesFrom_spec index order resourceVersionS feed.groups 0 feed.resources
  have names := distinct gvsDistinct clean
  refine ⟨items, found, fun _ mem => get_replace_of_mem schemeGroup names mem,
    fun _ absent => get_replace_of_not_mem schemeGroup absent,
    (list_perm (replace items) storeOrder selector).trans ?_⟩
  split_ifs
  · exact replace_perm names
  · exact .nil

/-- Pods with their status in the core group and deployments of `apps`, every loop in storage
order, and a selector that matches everything. -/
theorem lister_serves_list_core :
    let feed : Discovery :=
      ⟨[⟨"", "v1"⟩, ⟨"apps", "v1"⟩],
        [⟨"v1", [⟨"pods", "pod", true, "", "Pod", []⟩, ⟨"pods/status", "", true, "", "Pod", []⟩]⟩,
          ⟨"apps/v1", [⟨"deployments", "deployment", true, "", "Deployment", []⟩]⟩], []⟩
    (feed.resources.filterMap (listedGroupVersion feed.groups)).Nodup ∧
      (∀ gv ∈ feed.resources.filterMap (listedGroupVersion feed.groups), ColonFree gv) ∧
      ∃ items, listItems true Index.empty IterationOrder.stored "1" feed = some items ∧
        (∀ item ∈ items, get "meta.kubestellar.io" (replace items) item.name = .ok item) ∧
        (∀ name, name ∉ items.map (·.name) → get "meta.kubestellar.io" (replace items) name =
          .error (.notFound ⟨"meta.kubestellar.io", "apiresources"⟩ name)) ∧
        (list (replace items) .stored ⟨fun _ => true⟩).Perm items :=
  ⟨by decide, by decide, lister_serves_list "meta.kubestellar.io" Index.empty IterationOrder.stored
    "1" _ (by decide) (by decide) .stored ⟨fun _ => true⟩⟩

end Serves

end ApiWatch.Lister
