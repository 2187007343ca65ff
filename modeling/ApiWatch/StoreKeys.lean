import ApiWatch.Enumerate

/-!
# The names `List` gives are store keys

The informer files every item `List` returns under its key, and a key's `/` separates a
namespace from a name.  So `specComplete` names an item `group:version:name`, not with the
slashes of `group/version` and of a subresource name such as `pods/status`.

With subresources the convention holds of the whole answer: no item's name, and no name of a
spec nested in it, holds a `/`.  `listWithSubresources` splits each resource name on `/`
before it enters the subresource tree, `toList` names every spec it emits after one part of
such a split, and a group version that parses has no `/` in its group or its version.
Without subresources the discovery name is used whole, and a `/` in it reaches the item.
-/

namespace ApiWatch.StoreKeys

open ApiWatch.Go ApiWatch.Schema ApiWatch.DefinerIndex ApiWatch.SpecForest
  ApiWatch.SubresourceTree ApiWatch.Enumerate
open ApiWatch.Metav1 (APIGroup APIResourceList)
open ApiWatch.Ksmetav1a1 (APIResourceSpec)

/-- No name in an item holds a `/`: neither its own nor that of any spec in its tree. -/
def SlashFree (item : Ksmetav1a1.APIResource) : Prop :=
  '/' ∉ item.name.toList ∧ ∀ node ∈ forestNodes [] [item.spec], '/' ∉ node.2.name.toList

/-- The nodes of a spec of a forest are nodes of the forest. -/
theorem nodes_subset_forestNodes {base : List String} {spec : APIResourceSpec} :
    ∀ {forest : List APIResourceSpec}, spec ∈ forest →
      ∀ node ∈ nodes base spec, node ∈ forestNodes base forest
  | _ :: _, .head _, node, mem => by
    rw [forestNodes_cons]
    exact List.mem_append_left _ mem
  | _ :: _, .tail _ inRest, node, mem => by
    rw [forestNodes_cons]
    exact List.mem_append_right _ (nodes_subset_forestNodes inRest node mem)

/-- Every spec `toList` emits, at any depth, from the inserts of `listWithSubresources` is named
after a part of a split resource name. -/
theorem toList_names_slash_free {entries : List (String × APIResourceSpec)}
    (flat : ∀ entry ∈ entries, entry.2.subResources = []) {am : ArMap}
    (built : insertAll [] entries = some am) (order : RangeOrder (List String)) :
    ∀ node ∈ forestNodes [] (toList order [] am), '/' ∉ node.2.name.toList := by
  obtain ⟨-, paths, named⟩ := insertAll_emitsInserted flat built order
  rintro ⟨path, spec⟩ mem
  obtain ⟨nonempty, inserted⟩ := (paths path).1 (List.mem_map_of_mem _ mem)
  obtain ⟨entry, -, parted⟩ := inserted path (List.prefix_refl path) nonempty
  exact split_parts_free entry.1 '/' spec.name
    (parted ▸ List.mem_of_getLast?_eq_some (named path spec mem).1)

theorem listedGroupVersion_parsed {groupList : List APIGroup} {group : APIResourceList}
    {gv : GroupVersion} (listed : listedGroupVersion groupList group = some gv) :
    parseGroupVersion group.groupVersion = .ok gv := by
  unfold listedGroupVersion at listed
  split at listed
  · cases listed
  · split_ifs at listed
    cases listed
    assumption

/-- `specComplete` names an item after its group version and its spec, and keeps the spec. -/
theorem specComplete_slashFree {spec : APIResourceSpec} {gv : GroupVersion}
    (parsed : '/' ∉ gv.group.toList ∧ '/' ∉ gv.version.toList)
    (tree : ∀ node ∈ forestNodes [] [spec], '/' ∉ node.2.name.toList) (resourceVersionS : String) :
    SlashFree (specComplete spec resourceVersionS gv) := by
  have own := tree ([spec.name], spec) (by simp)
  refine ⟨?_, tree⟩
  simp only [specComplete, String.toList, String.data_append, List.mem_append, not_or]
  exact ⟨⟨⟨⟨parsed.1, by decide⟩, parsed.2⟩, by decide⟩, own⟩

theorem groupItems_slash_free (index : Index) (order : IterationOrder) (resourceVersionS : String)
    (groupList : List APIGroup) (list : Nat) (group : APIResourceList)
    {items : List Ksmetav1a1.APIResource}
    (found : groupItems index order resourceVersionS groupList list group = some items) :
    ∀ item ∈ items, SlashFree item := by
  rw [groupItems_eq] at found
  cases listed : listedGroupVersion groupList group with
  | none =>
    rw [listed] at found
    cases found
    exact fun _ mem => absurd mem (List.not_mem_nil _)
  | some gv =>
    rw [listed] at found
    obtain ⟨am, built, rfl⟩ := Option.map_eq_some'.1 found
    have names := toList_names_slash_free
      (enumAPIResourcesLocked_entries_flat index order.definerSets list gv group.apiResources) built
      (order.arMaps list)
    intro item mem
    obtain ⟨spec, specMem, rfl⟩ := List.mem_map.1 mem
    refine specComplete_slashFree
      (parseGroupVersion_slash_free (listedGroupVersion_parsed listed)) (fun node inTree => ?_) _
    exact names node (nodes_subset_forestNodes specMem node (by simpa using inTree))

theorem listWithSubresourcesFrom_slash_free (index : Index) (order : IterationOrder)
    (resourceVersionS : String) (groupList : List APIGroup) :
    ∀ (list : Nat) (resourceList : List APIResourceList) {items : List Ksmetav1a1.APIResource},
      listWithSubresourcesFrom index order resourceVersionS groupList list resourceList =
        some items → ∀ item ∈ items, SlashFree item
  | _, [], _, found => by
    cases found
    exact fun _ mem => absurd mem (List.not_mem_nil _)
  | list, group :: rest, _, found => by
    obtain ⟨block, inBlock, -⟩ := groupItems_spec index order resourceVersionS groupList list group
    obtain ⟨more, inMore, -⟩ :=
      listWithSubresourcesFrom_spec index order resourceVersionS groupList (list + 1) rest
    rw [listWithSubresourcesFrom, inBlock, inMore] at found
    obtain rfl : block ++ more = _ := Option.some.inj found
    intro item mem
    rcases List.mem_append.1 mem with mem | mem
    · exact groupItems_slash_free index order resourceVersionS groupList list group inBlock item mem
    · exact listWithSubresourcesFrom_slash_free index order resourceVersionS groupList (list + 1)
        rest inMore item mem

/-- `List` with subresources answers, and no name in its answer holds a `/`: every item's
`group:version:name`, and the name of every spec nested in it, is a key the store can hold. -/
theorem list_names_slash_free (index : Index) (order : IterationOrder) (resourceVersionS : String)
    (feed : Discovery) :
    ∃ items, listItems true index order resourceVersionS feed = some items ∧
      ∀ item ∈ items, SlashFree item := by
  obtain ⟨items, found, -⟩ :=
    listWithSubresourcesFrom_spec index order resourceVersionS feed.groups 0 feed.resources
  exact ⟨items, found, listWithSubresourcesFrom_slash_free index order resourceVersionS feed.groups
    0 feed.resources found⟩

end ApiWatch.StoreKeys
