import ApiWatch.SubresourceTree
import ApiWatch.DefinerIndex

/-!
# The items `List` returns

After its first critical section `List` fetches discovery data, then, holding the mutex,
turns it into `ksmetav1a1.APIResource` items.  With `includeSubresources` it reads
`ServerGroupsAndResources`, keeps each resource list whose group version parses and is the
one recorded for its group, and nests the list's resources through the subresource tree;
without it, it reads `ServerPreferredResources` and lists every resource flat.  Each item is
named `group:version:name`, since the usual slash confuses the store the informer fills.

The errors the discovery calls return are only logged and the model leaves them out.  The
orders of the `range` loops over Go maps (the arMaps and the definer sets) are an
`IterationOrder`, any permutation at each loop.
-/

namespace ApiWatch.Enumerate

open ApiWatch.Go ApiWatch.Schema ApiWatch.DefinerIndex ApiWatch.SpecForest
  ApiWatch.SubresourceTree
open ApiWatch.Metav1 (APIGroup APIResourceList GroupVersionResource)
open ApiWatch.Ksmetav1a1 (Definer APIResourceSpec)

/-- What the wrapped discovery client answers: `ServerGroupsAndResources` (the groups and
their resource lists) and `ServerPreferredResources`. -/
structure Discovery where
  groups : List APIGroup
  resources : List APIResourceList
  preferred : List APIResourceList

/-- No groups and no resources: what an empty discovery cache answers. -/
def Discovery.none : Discovery := ⟨[], [], []⟩

/-- The orders of the map loops of one `List`: over the arMap of the `list`-th resource list
at each prefix, and over the definer set of the `index`-th resource of the `list`-th list. -/
structure IterationOrder where
  arMaps : Nat → RangeOrder (List String)
  definerSets : RangeOrder (Nat × Nat)

/-- Every map loop visits its entries in storage order. -/
def IterationOrder.stored : IterationOrder := ⟨fun _ => .stored, .stored⟩

/-- `definersToSlice(asSet)`: one `Definer{Kind, Name}` per object of the set, in the order
the loop visits the set. -/
def definersToSlice (order : RangeOrder (Nat × Nat)) (site : Nat × Nat)
    (asSet : List ObjectID) : List Definer :=
  (order.visit site asSet).map fun definer => ⟨definer.kind, definer.name⟩

/-- `specComplete(spec, resourceVersionS, gv)`: the item for a spec. -/
def specComplete (spec : APIResourceSpec) (resourceVersionS : String) (gv : GroupVersion) :
    Ksmetav1a1.APIResource :=
  ⟨gv.group ++ ":" ++ gv.version ++ ":" ++ spec.name, resourceVersionS, spec⟩

/-- The spec `enumAPIResourcesLocked` hands its consumer for the `position`-th resource of
the `list`-th resource list: the resource's own version, or `gv.Version` when that is
empty, and the definers the index lists for the resource's full name. -/
def resourceSpec (index : Index) (definerOrder : RangeOrder (Nat × Nat)) (list : Nat)
    (gv : GroupVersion) (position : Nat) (rsc : Metav1.APIResource) : APIResourceSpec :=
  let rscVersion := if rsc.version = "" then gv.version else rsc.version
  { name := rsc.name
    singularName := rsc.singularName
    namespaced := rsc.namespaced
    group := gv.group
    version := rscVersion
    kind := rsc.kind
    verbs := rsc.verbs
    definers := definersToSlice definerOrder (list, position)
      (index.rscToDefiners ⟨gv.group, rscVersion, rsc.name⟩)
    subResources := [] }

/-- `enumAPIResourcesLocked(resourceVersionS, gv, mrs, consumer)`: the specs it hands
`consumer`, in order. -/
def enumAPIResourcesLocked (index : Index) (definerOrder : RangeOrder (Nat × Nat))
    (list : Nat) (gv : GroupVersion) (mrs : List Metav1.APIResource) : List APIResourceSpec :=
  mrs.enum.map fun entry => resourceSpec index definerOrder list gv entry.1 entry.2

/-- `groupToVersion[group]`, the map `listWithSubresources` builds from the group list: the
preferred version of the last group of that name, and `""`, Go's zero value, when no group
has that name. -/
def groupToVersion (groupList : List APIGroup) (group : String) : String :=
  groupList.foldl (fun found ag => if ag.name = group then ag.preferredVersion else found) ""

/-- The items the loop body of `listWithSubresources` appends for the `list`-th resource
list `group`; `none` is a panic of `am.insert`. -/
def groupItems (index : Index) (order : IterationOrder) (resourceVersionS : String)
    (groupList : List APIGroup) (list : Nat) (group : APIResourceList) :
    Option (List Ksmetav1a1.APIResource) :=
  match parseGroupVersion group.groupVersion with
  | .error _ => some []
  | .ok gv =>
    if groupToVersion groupList gv.group ≠ gv.version then some []
    else
      let specs := enumAPIResourcesLocked index order.definerSets list gv group.apiResources
      (insertAll [] (specs.map fun spec => (spec.name, spec))).map fun am =>
        (toList (order.arMaps list) [] am).map fun spec => specComplete spec resourceVersionS gv

/-- `listWithSubresources` from the `list`-th resource list on. -/
def listWithSubresourcesFrom (index : Index) (order : IterationOrder)
    (resourceVersionS : String) (groupList : List APIGroup) :
    Nat → List APIResourceList → Option (List Ksmetav1a1.APIResource)
  | _, [] => some []
  | list, group :: rest => do
    let items ← groupItems index order resourceVersionS groupList list group
    let more ← listWithSubresourcesFrom index order resourceVersionS groupList (list + 1) rest
    pure (items ++ more)

/-- `listWithSubresources(logger, resourceVersionS)` on the answer of
`ServerGroupsAndResources`. -/
def listWithSubresources (index : Index) (order : IterationOrder) (resourceVersionS : String)
    (groupList : List APIGroup) (resourceList : List APIResourceList) :
    Option (List Ksmetav1a1.APIResource) :=
  listWithSubresourcesFrom index order resourceVersionS groupList 0 resourceList

/-- The items the loop body of `listSansSubresources` appends for the `list`-th list. -/
def preferredItems (index : Index) (definerOrder : RangeOrder (Nat × Nat))
    (resourceVersionS : String) (list : Nat) (group : APIResourceList) :
    List Ksmetav1a1.APIResource :=
  match parseGroupVersion group.groupVersion with
  | .error _ => []
  | .ok gv =>
    (enumAPIResourcesLocked index definerOrder list gv group.apiResources).map fun arSpec =>
      specComplete arSpec resourceVersionS gv

/-- `listSansSubresources` from the `list`-th resource list on. -/
def listSansSubresourcesFrom (index : Index) (definerOrder : RangeOrder (Nat × Nat))
    (resourceVersionS : String) : Nat → List APIResourceList → List Ksmetav1a1.APIResource
  | _, [] => []
  | list, group :: rest =>
    preferredItems index definerOrder resourceVersionS list group ++
      listSansSubresourcesFrom index definerOrder resourceVersionS (list + 1) rest

/-- `listSansSubresources(resourceVersionS)` on the answer of `ServerPreferredResources`. -/
def listSansSubresources (index : Index) (definerOrder : RangeOrder (Nat × Nat))
    (resourceVersionS : String) (groupList : List APIResourceList) :
    List Ksmetav1a1.APIResource :=
  listSansSubresourcesFrom index definerOrder resourceVersionS 0 groupList

/-- The items of `List`, by `includeSubresources`. -/
def listItems (includeSubresources : Bool) (index : Index) (order : IterationOrder)
    (resourceVersionS : String) (feed : Discovery) : Option (List Ksmetav1a1.APIResource) :=
  if includeSubresources then
    listWithSubresources index order resourceVersionS feed.groups feed.resources
  else some (listSansSubresources index order.definerSets resourceVersionS feed.preferred)

/-- A resource list whose group is missing from the group list and whose version is empty
is listed: the lookup in `groupToVersion` falls back to Go's zero value `""`. -/
theorem listWithSubresources_unlisted_group :
    ((listWithSubresources Index.empty IterationOrder.stored "2" [⟨"example.com", "v1"⟩]
        [⟨"example.com/v1", [⟨"widgets", "widget", true, "", "Widget", []⟩]⟩,
          ⟨"/", [⟨"gadgets", "gadget", true, "", "Gadget", []⟩]⟩]).map
      fun items => items.map (·.name)) = some ["example.com:v1:widgets", "::gadgets"] := by
  decide

/-! ## Item names -/

/-- The group version `listWithSubresources` lists a resource list under: it parses, and its
version is the one `groupToVersion` records for its group. -/
def listedGroupVersion (groupList : List APIGroup) (group : APIResourceList) :
    Option GroupVersion :=
  match parseGroupVersion group.groupVersion with
  | .error _ => none
  | .ok gv => if groupToVersion groupList gv.group = gv.version then some gv else none

/-- The group version `listSansSubresources` lists a resource list under, if it parses. -/
def parsedGroupVersion (group : APIResourceList) : Option GroupVersion :=
  (parseGroupVersion group.groupVersion).toOption

/-- Neither part of a group version holds a `:`. -/
def ColonFree (gv : GroupVersion) : Prop := ':' ∉ gv.group.toList ∧ ':' ∉ gv.version.toList

instance (gv : GroupVersion) : Decidable (ColonFree gv) := inferInstanceAs (Decidable (_ ∧ _))

/-- An item is named `group:version:` of `gv` followed by some resource name. -/
def NamedUnder (gv : GroupVersion) (item : Ksmetav1a1.APIResource) : Prop :=
  ∃ name, item.name = gv.group ++ ":" ++ gv.version ++ ":" ++ name

theorem groupItems_eq (index : Index) (order : IterationOrder) (resourceVersionS : String)
    (groupList : List APIGroup) (list : Nat) (group : APIResourceList) :
    groupItems index order resourceVersionS groupList list group =
      match listedGroupVersion groupList group with
      | none => some []
      | some gv =>
        (insertAll [] ((enumAPIResourcesLocked index order.definerSets list gv
            group.apiResources).map fun spec => (spec.name, spec))).map fun am =>
          (toList (order.arMaps list) [] am).map fun spec => specComplete spec resourceVersionS gv := by
  unfold groupItems listedGroupVersion
  cases parseGroupVersion group.groupVersion with
  | error => rfl
  | ok gv => by_cases listed : groupToVersion groupList gv.group = gv.version <;> simp [listed]

theorem preferredItems_eq (index : Index) (definerOrder : RangeOrder (Nat × Nat))
    (resourceVersionS : String) (list : Nat) (group : APIResourceList) :
    preferredItems index definerOrder resourceVersionS list group =
      match parsedGroupVersion group with
      | none => []
      | some gv =>
        (enumAPIResourcesLocked index definerOrder list gv group.apiResources).map fun arSpec =>
          specComplete arSpec resourceVersionS gv := by
  unfold preferredItems parsedGroupVersion
  cases parseGroupVersion group.groupVersion <;> rfl

@[simp]
theorem enumAPIResourcesLocked_names (index : Index) (definerOrder : RangeOrder (Nat × Nat))
    (list : Nat) (gv : GroupVersion) (mrs : List Metav1.APIResource) :
    (enumAPIResourcesLocked index definerOrder list gv mrs).map (·.name) = mrs.map (·.name) := by
  rw [enumAPIResourcesLocked, List.map_map]
  conv_rhs => rw [← List.enum_map_snd mrs, List.map_map]
  rfl

theorem enumAPIResourcesLocked_flat (index : Index) (definerOrder : RangeOrder (Nat × Nat))
    (list : Nat) (gv : GroupVersion) (mrs : List Metav1.APIResource) :
    ∀ spec ∈ enumAPIResourcesLocked index definerOrder list gv mrs, spec.subResources = [] := by
  simp only [enumAPIResourcesLocked, List.mem_map]
  rintro _ ⟨_, _, rfl⟩
  rfl

/-- The entries `listWithSubresources` inserts, each spec under its own name, have no
subresources of their own. -/
theorem enumAPIResourcesLocked_entries_flat (index : Index)
    (definerOrder : RangeOrder (Nat × Nat)) (list : Nat) (gv : GroupVersion)
    (mrs : List Metav1.APIResource) :
    ∀ entry ∈ (enumAPIResourcesLocked index definerOrder list gv mrs).map
      (fun spec => (spec.name, spec)), entry.2.subResources = [] := by
  intro _ mem
  obtain ⟨spec, specMem, rfl⟩ := List.mem_map.1 mem
  exact enumAPIResourcesLocked_flat index definerOrder list gv mrs spec specMem

/-- The names `toList` gives its top-level specs are distinct. -/
theorem toList_names_nodup (order : RangeOrder (List String)) {am : ArMap} (tidy : MapTidy am) :
    ((toList order [] am).map (·.name)).Nodup := by
  have distinct := ((@forestNodes_perm [] _ _ (toList_perm order [] am)).map Prod.fst).nodup_iff.2
    (emitted_paths_nodup order tidy)
  have roots := ((roots_sublist [] (toList order [] am)).map Prod.fst).nodup distinct
  exact List.Nodup.of_map (fun name => [name]) (by simpa [List.map_map, Function.comp_def] using roots)

theorem append_cons_inj {c : Char} :
    ∀ {left right rest rest' : List Char}, c ∉ left → c ∉ right →
      left ++ c :: rest = right ++ c :: rest' → left = right ∧ rest = rest'
  | [], [], _, _, _, _, same => ⟨rfl, by simpa using same⟩
  | [], d :: _, _, _, _, clean, same => by
    simp only [List.nil_append, List.cons_append, List.cons.injEq] at same
    exact absurd (same.1 ▸ List.mem_cons_self d _) clean
  | d :: _, [], _, _, clean, _, same => by
    simp only [List.nil_append, List.cons_append, List.cons.injEq] at same
    exact absurd (same.1.symm ▸ List.mem_cons_self d _) clean
  | d :: left, e :: right, _, _, clean, clean', same => by
    simp only [List.cons_append, List.cons.injEq] at same
    obtain ⟨rfl, same⟩ := same
    obtain ⟨rfl, rfl⟩ := append_cons_inj (List.not_mem_of_not_mem_cons clean)
      (List.not_mem_of_not_mem_cons clean') same
    exact ⟨rfl, rfl⟩

/-- An item's name `group:version:name` determines its group version, when neither part
holds a `:`. -/
theorem itemName_inj {gv gv' : GroupVersion} {name name' : String}
    (clean : ':' ∉ gv.group.toList ∧ ':' ∉ gv.version.toList)
    (clean' : ':' ∉ gv'.group.toList ∧ ':' ∉ gv'.version.toList)
    (same : gv.group ++ ":" ++ gv.version ++ ":" ++ name =
      gv'.group ++ ":" ++ gv'.version ++ ":" ++ name') : gv = gv' ∧ name = name' := by
  have data := congrArg String.data same
  simp only [String.data_append, List.append_assoc] at data
  obtain ⟨groups, data⟩ := append_cons_inj clean.1 clean'.1 data
  obtain ⟨versions, names⟩ := append_cons_inj clean.2 clean'.2 data
  exact ⟨by cases gv; cases gv'; simp_all [String.ext_iff], String.ext names⟩

theorem append_left_injective (front : String) : Function.Injective (front ++ ·) :=
  fun _ _ same => String.ext (List.append_cancel_left (congrArg String.data same))

/-- The items of one resource list: `am.insert` never panics, the names are distinct, and
each is `group:version:` of the list's group version followed by a spec's name. -/
theorem groupItems_spec (index : Index) (order : IterationOrder) (resourceVersionS : String)
    (groupList : List APIGroup) (list : Nat) (group : APIResourceList) :
    ∃ items, groupItems index order resourceVersionS groupList list group = some items ∧
      (items.map (·.name)).Nodup ∧
      ∀ item ∈ items, ∃ gv, listedGroupVersion groupList group = some gv ∧ NamedUnder gv item := by
  rw [groupItems_eq]
  cases listed : listedGroupVersion groupList group with
  | none => exact ⟨[], rfl, List.nodup_nil, fun _ mem => absurd mem (List.not_mem_nil _)⟩
  | some gv =>
    obtain ⟨am, built⟩ := Option.isSome_iff_exists.1 (insertAll_isSome []
      ((enumAPIResourcesLocked index order.definerSets list gv group.apiResources).map
        fun spec => (spec.name, spec)))
    have tidy := insertAll_tidy mapTidy_nil
      (enumAPIResourcesLocked_entries_flat index order.definerSets list gv group.apiResources) built
    refine ⟨_, by dsimp only; rw [built]; rfl, ?_, ?_⟩
    · have distinct := (toList_names_nodup (order.arMaps list) tidy).map
        (append_left_injective (gv.group ++ ":" ++ gv.version ++ ":"))
      simpa [List.map_map, Function.comp_def, specComplete] using distinct
    · intro item mem
      obtain ⟨spec, -, rfl⟩ := List.mem_map.1 mem
      exact ⟨gv, rfl, spec.name, rfl⟩

section Blocks

/-! ## Items built one resource list at a time

Both loops of `List` append, per resource list, a block of items named under that list's
group version.  These two lemmas are the loop step shared by the two inductions below. -/

variable {listed : APIResourceList → Option GroupVersion} {group : APIResourceList}
  {rest : List APIResourceList} {items more : List Ksmetav1a1.APIResource}
  (named : ∀ item ∈ items, ∃ gv, listed group = some gv ∧ NamedUnder gv item)
  (namedMore : ∀ item ∈ more, ∃ gv ∈ rest.filterMap listed, NamedUnder gv item)
include named namedMore

theorem append_namedUnder :
    ∀ item ∈ items ++ more, ∃ gv ∈ (group :: rest).filterMap listed, NamedUnder gv item := by
  intro item mem
  rcases List.mem_append.1 mem with mem | mem
  · obtain ⟨gv, found, same⟩ := named item mem
    exact ⟨gv, by simp [List.filterMap_cons, found], same⟩
  · obtain ⟨gv, other, same⟩ := namedMore item mem
    obtain ⟨g, gMem, found⟩ := List.mem_filterMap.1 other
    exact ⟨gv, List.mem_filterMap.2 ⟨g, List.mem_cons_of_mem _ gMem, found⟩, same⟩

/-- A block with distinct names prepended to items with distinct names keeps them distinct,
when the group versions are distinct and colon-free. -/
theorem append_names_nodup (distinct : (items.map (·.name)).Nodup)
    (gvsDistinct : ((group :: rest).filterMap listed).Nodup)
    (clean : ∀ gv ∈ (group :: rest).filterMap listed, ColonFree gv)
    (distinctMore : (rest.filterMap listed).Nodup →
      (∀ gv ∈ rest.filterMap listed, ColonFree gv) → (more.map (·.name)).Nodup) :
    ((items ++ more).map (·.name)).Nodup := by
  cases found : listed group with
  | none =>
    have empty : items = [] := List.eq_nil_iff_forall_not_mem.2 fun item mem => by
      obtain ⟨_, found', _⟩ := named item mem
      simp [found] at found'
    rw [List.filterMap_cons_none found] at gvsDistinct clean
    simpa [empty] using distinctMore gvsDistinct clean
  | some gv =>
    rw [List.filterMap_cons_some found] at gvsDistinct clean
    have fresh := (List.nodup_cons.1 gvsDistinct).1
    rw [List.map_append, List.nodup_append]
    refine ⟨distinct, distinctMore (List.nodup_cons.1 gvsDistinct).2
      fun gv' mem => clean gv' (List.mem_cons_of_mem _ mem), ?_⟩
    intro name inItems inMore
    obtain ⟨item, itemMem, rfl⟩ := List.mem_map.1 inItems
    obtain ⟨item', itemMem', same⟩ := List.mem_map.1 inMore
    obtain ⟨gv₁, found₁, suffix, named₁⟩ := named item itemMem
    obtain rfl := Option.some.inj (found.symm.trans found₁)
    obtain ⟨gv', other, suffix', named'⟩ := namedMore item' itemMem'
    have sameGv := (itemName_inj (clean gv (List.mem_cons_self _ _))
      (clean gv' (List.mem_cons_of_mem _ other)) (named₁.symm.trans (same.symm.trans named'))).1
    exact fresh (sameGv ▸ other)

end Blocks

/-- `listWithSubresourcesFrom` never panics; each item is named after a listed group version
of the lists it ran over, and the names are distinct when those group versions are distinct
and colon-free. -/
theorem listWithSubresourcesFrom_spec (index : Index) (order : IterationOrder)
    (resourceVersionS : String) (groupList : List APIGroup) :
    ∀ (list : Nat) (resourceList : List APIResourceList),
      ∃ items, listWithSubresourcesFrom index order resourceVersionS groupList list
          resourceList = some items ∧
        (∀ item ∈ items, ∃ gv ∈ resourceList.filterMap (listedGroupVersion groupList),
          NamedUnder gv item) ∧
        ((resourceList.filterMap (listedGroupVersion groupList)).Nodup →
          (∀ gv ∈ resourceList.filterMap (listedGroupVersion groupList), ColonFree gv) →
          (items.map (·.name)).Nodup)
  | _, [] => ⟨[], rfl, by simp, fun _ _ => List.nodup_nil⟩
  | list, group :: rest => by
    obtain ⟨items, found, distinct, named⟩ :=
      groupItems_spec index order resourceVersionS groupList list group
    obtain ⟨more, foundMore, namedMore, distinctMore⟩ :=
      listWithSubresourcesFrom_spec index order resourceVersionS groupList (list + 1) rest
    exact ⟨items ++ more, by simp [listWithSubresourcesFrom, found, foundMore],
      append_namedUnder named namedMore,
      fun gvsDistinct clean => append_names_nodup named namedMore distinct gvsDistinct clean
        distinctMore⟩

theorem preferredItems_spec (index : Index) (definerOrder : RangeOrder (Nat × Nat))
    (resourceVersionS : String) (list : Nat) (group : APIResourceList) :
    (group.apiResources.map (·.name)).Nodup →
      ((preferredItems index definerOrder resourceVersionS list group).map (·.name)).Nodup ∧
      ∀ item ∈ preferredItems index definerOrder resourceVersionS list group,
        ∃ gv, parsedGroupVersion group = some gv ∧ NamedUnder gv item := by
  intro distinct
  rw [preferredItems_eq]
  cases parsedGroupVersion group with
  | none => simp
  | some gv =>
    have names := congrArg (List.map (gv.group ++ ":" ++ gv.version ++ ":" ++ ·))
      (enumAPIResourcesLocked_names index definerOrder list gv group.apiResources)
    simp only [List.map_map, Function.comp_def] at names
    refine ⟨?_, ?_⟩
    · simpa [List.map_map, Function.comp_def, specComplete, names]
        using distinct.map (append_left_injective (gv.group ++ ":" ++ gv.version ++ ":"))
    · intro item mem
      obtain ⟨spec, -, rfl⟩ := List.mem_map.1 mem
      exact ⟨gv, rfl, spec.name, rfl⟩

/-- `listSansSubresourcesFrom`: each item is named after a parsed group version of the lists
it ran over, and the names are distinct when those group versions are distinct and
colon-free and each list's resource names are distinct. -/
theorem listSansSubresourcesFrom_spec (index : Index) (definerOrder : RangeOrder (Nat × Nat))
    (resourceVersionS : String) :
    ∀ (list : Nat) (resourceList : List APIResourceList),
      (∀ group ∈ resourceList, (group.apiResources.map (·.name)).Nodup) →
        (∀ item ∈ listSansSubresourcesFrom index definerOrder resourceVersionS list resourceList,
          ∃ gv ∈ resourceList.filterMap parsedGroupVersion, NamedUnder gv item) ∧
        ((resourceList.filterMap parsedGroupVersion).Nodup →
          (∀ gv ∈ resourceList.filterMap parsedGroupVersion, ColonFree gv) →
          ((listSansSubresourcesFrom index definerOrder resourceVersionS list
            resourceList).map (·.name)).Nodup)
  | _, [], _ => ⟨by simp [listSansSubresourcesFrom], fun _ _ => by simp [listSansSubresourcesFrom]⟩
  | list, group :: rest, distinctEach => by
    obtain ⟨distinct, named⟩ := preferredItems_spec index definerOrder resourceVersionS list group
      (distinctEach group (List.mem_cons_self _ _))
    obtain ⟨namedMore, distinctMore⟩ := listSansSubresourcesFrom_spec index definerOrder
      resourceVersionS (list + 1) rest fun other mem => distinctEach other (List.mem_cons_of_mem _ mem)
    exact ⟨append_namedUnder named namedMore,
      fun gvsDistinct clean => append_names_nodup named namedMore distinct gvsDistinct clean
        distinctMore⟩

/-- `List` never panics: the tree it builds takes every spec `enumAPIResourcesLocked` hands
it. -/
theorem listItems_isSome (includeSubresources : Bool) (index : Index) (order : IterationOrder)
    (resourceVersionS : String) (feed : Discovery) :
    (listItems includeSubresources index order resourceVersionS feed).isSome := by
  cases includeSubresources
  · rfl
  · obtain ⟨items, found, -⟩ :=
      listWithSubresourcesFrom_spec index order resourceVersionS feed.groups 0 feed.resources
    simp [listItems, listWithSubresources, found]

/-- Item names are distinct: with subresources when the listed group versions are distinct
and colon-free, and without when the parsed group versions are, and each preferred list
names its resources once. -/
theorem listItems_names_nodup (index : Index) (order : IterationOrder)
    (resourceVersionS : String) (feed : Discovery) :
    ((feed.resources.filterMap (listedGroupVersion feed.groups)).Nodup →
      (∀ gv ∈ feed.resources.filterMap (listedGroupVersion feed.groups), ColonFree gv) →
      ∃ items, listItems true index order resourceVersionS feed = some items ∧
        (items.map (·.name)).Nodup) ∧
    ((feed.preferred.filterMap parsedGroupVersion).Nodup →
      (∀ gv ∈ feed.preferred.filterMap parsedGroupVersion, ColonFree gv) →
      (∀ group ∈ feed.preferred, (group.apiResources.map (·.name)).Nodup) →
      ∃ items, listItems false index order resourceVersionS feed = some items ∧
        (items.map (·.name)).Nodup) := by
  refine ⟨fun gvsDistinct clean => ?_, fun gvsDistinct clean distinctEach => ?_⟩
  · obtain ⟨items, found, -, distinct⟩ :=
      listWithSubresourcesFrom_spec index order resourceVersionS feed.groups 0 feed.resources
    exact ⟨items, found, distinct gvsDistinct clean⟩
  · exact ⟨_, rfl, (listSansSubresourcesFrom_spec index order.definerSets resourceVersionS 0
      feed.preferred distinctEach).2 gvsDistinct clean⟩

/-- Two group versions of one group, each listed once: pods and their status in the core
group, and deployments of `apps`. -/
theorem listItems_names_nodup_core :
    let feed : Discovery :=
      ⟨[⟨"", "v1"⟩, ⟨"apps", "v1"⟩],
        [⟨"v1", [⟨"pods", "pod", true, "", "Pod", []⟩, ⟨"pods/status", "", true, "", "Pod", []⟩]⟩,
          ⟨"apps/v1", [⟨"deployments", "deployment", true, "", "Deployment", []⟩]⟩],
        [⟨"v1", [⟨"pods", "pod", true, "", "Pod", []⟩]⟩,
          ⟨"apps/v1", [⟨"deployments", "deployment", true, "", "Deployment", []⟩]⟩]⟩
    (∃ items, listItems true Index.empty IterationOrder.stored "1" feed = some items ∧
        (items.map (·.name)).Nodup) ∧
      ∃ items, listItems false Index.empty IterationOrder.stored "1" feed = some items ∧
        (items.map (·.name)).Nodup :=
  ⟨(listItems_names_nodup Index.empty IterationOrder.stored "1" _).1 (by decide) (by decide),
    (listItems_names_nodup Index.empty IterationOrder.stored "1" _).2 (by decide) (by decide)
      (by decide)⟩

/-! ## The order of the map loops

Nothing in `List` sorts: `arMap.toList` hands its consumer the specs in the order its loop
visits the arMap, at the top of the tree and in every `SubResources` list, and
`definersToSlice` lists the definers in the order its loop visits the set. -/

/-- Widgets of `example.com/v1`, with their `status` and `scale` subresources and two
definers, and gadgets: reversing the loops over the arMaps reverses the items and the
widgets' subresources, and reversing the loops over the definer sets reverses the widgets'
definers. -/
theorem listItems_order_follows_map_loops :
    let index : Index := setDefinerLocked (setDefinerLocked Index.empty
        ⟨"apiextensions.k8s.io/v1", "CustomResourceDefinition", "widgets.example.com"⟩
        [⟨"example.com", "v1", "widgets"⟩])
      ⟨"apiregistration.k8s.io/v1", "APIService", "v1.example.com"⟩
      [⟨"example.com", "v1", "widgets"⟩]
    let feed : Discovery :=
      ⟨[⟨"example.com", "v1"⟩],
        [⟨"example.com/v1", [⟨"widgets", "widget", true, "", "Widget", []⟩,
          ⟨"widgets/status", "", true, "", "Widget", []⟩,
          ⟨"widgets/scale", "", true, "", "Scale", []⟩,
          ⟨"gadgets", "gadget", true, "", "Gadget", []⟩]⟩], []⟩
    let shape := fun (items : List Ksmetav1a1.APIResource) => items.map fun item =>
      (item.name, item.spec.subResources.map (·.name), item.spec.definers.map (·.name))
    (listItems true index IterationOrder.stored "1" feed).map shape =
        some [("example.com:v1:widgets", ["status", "scale"],
            ["v1.example.com", "widgets.example.com"]),
          ("example.com:v1:gadgets", [], [])] ∧
      (listItems true index ⟨fun _ => .reversed, .stored⟩ "1" feed).map shape =
        some [("example.com:v1:gadgets", [], []),
          ("example.com:v1:widgets", ["scale", "status"],
            ["v1.example.com", "widgets.example.com"])] ∧
      (listItems true index ⟨fun _ => .stored, .reversed⟩ "1" feed).map shape =
        some [("example.com:v1:widgets", ["status", "scale"],
            ["widgets.example.com", "v1.example.com"]),
          ("example.com:v1:gadgets", [], [])] := by
  decide

end ApiWatch.Enumerate
