import ApiWatch.Enumerate
import Mathlib.Data.Multiset.Basic

/-!
# What `List` answers, whatever order its map loops take

`List` sorts nothing: the order of its items, of each `SubResources` list and of each
`Definers` list is the order in which Go's `range` loops visit the arMaps and the definer
sets, and it changes with that order.  This module states what the answer says once those
orders are forgotten, and proves that it is the same for every `IterationOrder`.

`contents` flattens an answer into its specs at every depth, each with the name and
resource version of its item, the path of names from the item's spec down to it, and its
own fields with its definers read as a multiset.  A spec's subresources are the specs one
name below it (`subResources_perm_children`), so two answers whose contents are permutations
of each other hold the same items, each with the same specs at the same paths below it and
the same definers on each, in possibly different orders.
-/

namespace ApiWatch.Unordered

open ApiWatch.Go ApiWatch.Schema ApiWatch.DefinerIndex ApiWatch.SpecForest ApiWatch.SubresourceTree
  ApiWatch.Enumerate
open ApiWatch.Metav1 (APIGroup APIResourceList)
open ApiWatch.Ksmetav1a1 (Definer APIResourceSpec)

/-! ## Order-free contents -/

/-- The fields of a spec with the order of its lists forgotten: its definers as a multiset;
its subresources are left to the specs below it. -/
structure SpecContent where
  name : String
  singularName : String
  namespaced : Bool
  group : String
  version : String
  kind : String
  verbs : List String
  definers : Multiset Definer
deriving DecidableEq

/-- The content of a spec. -/
def specContent (spec : APIResourceSpec) : SpecContent :=
  ⟨spec.name, spec.singularName, spec.namespaced, spec.group, spec.version, spec.kind,
    spec.verbs, spec.definers⟩

/-- The specs of an answer at every depth, each with its item's name and resource version,
its path of names in the item's spec, and its content. -/
def contents (items : List Ksmetav1a1.APIResource) :
    List (String × String × List String × SpecContent) :=
  items.flatMap fun item => (nodes [] item.spec).map fun node =>
    (item.name, item.resourceVersion, Prod.map id specContent node)

theorem contents_append (items more : List Ksmetav1a1.APIResource) :
    contents (items ++ more) = contents items ++ contents more :=
  List.flatMap_append _ _ _

/-- Renaming a spec and replacing its subresources renames its content. -/
theorem specContent_rename (spec : APIResourceSpec) (name : String)
    (subResources : List APIResourceSpec) :
    specContent { spec with name := name, subResources := subResources } =
      { specContent spec with name := name } := rfl

/-- Every node of an item's spec lies on a path that starts at the spec's own name. -/
theorem headD_of_mem_nodes {spec : APIResourceSpec} {node : List String × APIResourceSpec}
    (mem : node ∈ nodes [] spec) : node.1.headD "" = spec.name := by
  rw [nodes_eq, List.mem_cons] at mem
  rcases mem with rfl | mem
  · rfl
  · obtain ⟨path, sub⟩ := node
    obtain ⟨rest, -, rfl⟩ := mem_forestNodes_extends mem
    rfl

/-- The items `specComplete` makes of a forest: their contents are the forest's nodes, each
under the item its root names. -/
theorem contents_specComplete (resourceVersionS : String) (gv : GroupVersion)
    (forest : List APIResourceSpec) :
    contents (forest.map fun spec => specComplete spec resourceVersionS gv) =
      ((forestNodes [] forest).map (Prod.map id specContent)).map fun node =>
        (gv.group ++ ":" ++ gv.version ++ ":" ++ node.1.headD "", resourceVersionS, node) := by
  induction forest with
  | nil => rfl
  | cons spec rest ih =>
    rw [List.map_cons, contents, List.flatMap_cons, ← contents, ih, forestNodes_cons,
      List.map_append, List.map_append]
    congr 1
    rw [List.map_map]
    exact List.map_congr_left fun node mem => by
      show _ = (_ ++ node.1.headD "", _, _)
      rw [headD_of_mem_nodes mem]
      rfl

/-- The nodes of a forest of specs without subresources are its roots. -/
theorem forestNodes_flat {forest : List APIResourceSpec}
    (flat : ∀ spec ∈ forest, spec.subResources = []) :
    forestNodes [] forest = forest.map fun spec => ([spec.name], spec) := by
  induction forest with
  | nil => rfl
  | cons spec rest ih =>
    rw [forestNodes_cons, nodes_eq, flat spec (List.mem_cons_self _ _), forestNodes_nil,
      ih fun other mem => flat other (List.mem_cons_of_mem _ mem)]
    rfl

/-! ## Inserts that agree up to the order of definers -/

section Agree

variable {entries entries' : List (String × APIResourceSpec)}
  (agree : entries.map (Prod.map id specContent) = entries'.map (Prod.map id specContent))
include agree

theorem names_eq_of_agree : entries.map Prod.fst = entries'.map Prod.fst := by
  simpa only [List.map_map] using congrArg (List.map Prod.fst) agree

theorem inserted_of_agree {path : List String} (inserted : Inserted entries path) :
    Inserted entries' path := by
  obtain ⟨entry, mem, split⟩ := inserted
  obtain ⟨entry', mem', same⟩ :=
    List.mem_map.1 (names_eq_of_agree agree ▸ List.mem_map_of_mem Prod.fst mem)
  exact ⟨entry', mem', same ▸ split⟩

theorem admitted_of_agree {path : List String} (admitted : Admitted entries path) :
    Admitted entries' path :=
  ⟨admitted.1, fun stem stemPrefix nonempty =>
    inserted_of_agree agree (admitted.2 stem stemPrefix nonempty)⟩

/-- The spec last inserted at a path has the same content in both sequences. -/
theorem lastInsertedAt_content (path : List String) :
    (lastInsertedAt entries path).map specContent =
      (lastInsertedAt entries' path).map specContent := by
  induction entries generalizing entries' with
  | nil => cases entries' with
    | nil => rfl
    | cons _ _ => cases agree
  | cons entry rest ih =>
    cases entries' with
    | nil => cases agree
    | cons entry' rest' =>
      obtain ⟨name, spec⟩ := entry
      obtain ⟨name', spec'⟩ := entry'
      simp only [List.map_cons, List.cons.injEq, Prod.map, id, Prod.mk.injEq] at agree
      obtain ⟨⟨rfl, content⟩, agreeRest⟩ := agree
      rw [lastInsertedAt, lastInsertedAt, Option.map_or', Option.map_or', ih agreeRest]
      split <;> simp [content]

/-- A spec `toList` emits for one sequence has the content of the spec it emits at the same
path for the other. -/
theorem mem_contents_of_agree {out out' : List (List String × APIResourceSpec)}
    (emits : EmitsInserted entries out) (emits' : EmitsInserted entries' out')
    {node : List String × SpecContent} (mem : node ∈ out.map (Prod.map id specContent)) :
    node ∈ out'.map (Prod.map id specContent) := by
  obtain ⟨⟨path, spec⟩, specMem, rfl⟩ := List.mem_map.1 mem
  obtain ⟨⟨path', spec'⟩, specMem', same⟩ := List.mem_map.1 ((emits'.2.1 path).2
    (admitted_of_agree agree ((emits.2.1 path).1 (List.mem_map_of_mem Prod.fst specMem))))
  obtain rfl : path = path' := same.symm
  obtain ⟨last, ⟨stored, found, shape⟩, -⟩ := emits.2.2 path spec specMem
  obtain ⟨last', ⟨stored', found', shape'⟩, -⟩ := emits'.2.2 path spec' specMem'
  have stores := lastInsertedAt_content agree path
  rw [found, found', Option.map_some', Option.map_some'] at stores
  refine List.mem_map.2 ⟨_, specMem', ?_⟩
  rw [Prod.map_apply, Prod.map_apply, shape, shape', specContent_rename, specContent_rename,
    Option.some.inj (last'.symm.trans last), Option.some.inj stores]

end Agree

theorem emitsInserted_contents_nodup {entries : List (String × APIResourceSpec)}
    {out : List (List String × APIResourceSpec)} (emits : EmitsInserted entries out) :
    (out.map (Prod.map id specContent)).Nodup :=
  List.Nodup.of_map Prod.fst (by simpa only [List.map_map] using emits.1)

/-- Two sequences of inserts that agree up to the order of definers, of specs with no
subresources of their own: neither panics, and `toList` emits the same contents from both
trees, up to order, whatever order each visits its maps in. -/
theorem insertAll_contents_perm {entries entries' : List (String × APIResourceSpec)}
    (agree : entries.map (Prod.map id specContent) = entries'.map (Prod.map id specContent))
    (flat : ∀ entry ∈ entries, entry.2.subResources = [])
    (flat' : ∀ entry ∈ entries', entry.2.subResources = [])
    (order order' : RangeOrder (List String)) :
    ∃ am am', insertAll [] entries = some am ∧ insertAll [] entries' = some am' ∧
      List.Perm ((forestNodes [] (toList order [] am)).map (Prod.map id specContent))
        ((forestNodes [] (toList order' [] am')).map (Prod.map id specContent)) := by
  obtain ⟨am, built⟩ := Option.isSome_iff_exists.1 (insertAll_isSome [] entries)
  obtain ⟨am', built'⟩ := Option.isSome_iff_exists.1 (insertAll_isSome [] entries')
  have emits := insertAll_emitsInserted flat built order
  have emits' := insertAll_emitsInserted flat' built' order'
  exact ⟨am, am', built, built', (List.perm_ext_iff_of_nodup (emitsInserted_contents_nodup emits)
    (emitsInserted_contents_nodup emits')).2 fun _ =>
      ⟨mem_contents_of_agree agree emits emits',
        mem_contents_of_agree agree.symm emits' emits⟩⟩

/-! ## The specs of one resource list -/

/-- The spec of a resource has the same content whatever order the loop over its definer set
takes. -/
theorem specContent_resourceSpec (index : Index)
    (definerOrder definerOrder' : RangeOrder (Nat × Nat))
    (list : Nat) (gv : GroupVersion) (position : Nat) (rsc : Metav1.APIResource) :
    specContent (resourceSpec index definerOrder list gv position rsc) =
      specContent (resourceSpec index definerOrder' list gv position rsc) := by
  simp only [specContent, resourceSpec, definersToSlice, SpecContent.mk.injEq, true_and]
  exact Multiset.coe_eq_coe.2
    (((definerOrder.visit_perm _ _).trans (definerOrder'.visit_perm _ _).symm).map _)

/-- The entries `listWithSubresources` inserts agree up to the order of definers whatever
order the loops over the definer sets take. -/
theorem enumAPIResourcesLocked_agree (index : Index)
    (definerOrder definerOrder' : RangeOrder (Nat × Nat)) (list : Nat) (gv : GroupVersion)
    (mrs : List Metav1.APIResource) :
    ((enumAPIResourcesLocked index definerOrder list gv mrs).map
        fun spec => (spec.name, spec)).map (Prod.map id specContent) =
      ((enumAPIResourcesLocked index definerOrder' list gv mrs).map
        fun spec => (spec.name, spec)).map (Prod.map id specContent) := by
  simp only [enumAPIResourcesLocked, List.map_map]
  exact List.map_congr_left fun entry _ =>
    Prod.ext rfl (specContent_resourceSpec index definerOrder definerOrder' list gv _ _)

/-- The items `listWithSubresources` appends for one resource list: the same contents, up to
order, whatever orders the map loops take. -/
theorem groupItems_contents_perm (index : Index) (order order' : IterationOrder)
    (resourceVersionS : String) (groupList : List APIGroup) (list : Nat)
    (group : APIResourceList) :
    ∃ items items', groupItems index order resourceVersionS groupList list group = some items ∧
      groupItems index order' resourceVersionS groupList list group = some items' ∧
      List.Perm (contents items) (contents items') := by
  rw [groupItems_eq, groupItems_eq]
  cases listedGroupVersion groupList group with
  | none => exact ⟨[], [], rfl, rfl, .refl _⟩
  | some gv =>
    obtain ⟨am, am', built, built', perm⟩ := insertAll_contents_perm
      (enumAPIResourcesLocked_agree index order.definerSets order'.definerSets list gv
        group.apiResources)
      (enumAPIResourcesLocked_entries_flat _ _ _ _ _)
      (enumAPIResourcesLocked_entries_flat _ _ _ _ _)
      (order.arMaps list) (order'.arMaps list)
    refine ⟨_, _, by dsimp only; rw [built]; rfl, by dsimp only; rw [built']; rfl, ?_⟩
    rw [contents_specComplete, contents_specComplete]
    exact perm.map _

/-- The items `listSansSubresources` appends for one resource list: the same contents, in the
same order, whatever order the loops over the definer sets take. -/
theorem preferredItems_contents (index : Index)
    (definerOrder definerOrder' : RangeOrder (Nat × Nat)) (resourceVersionS : String)
    (list : Nat) (group : APIResourceList) :
    contents (preferredItems index definerOrder resourceVersionS list group) =
      contents (preferredItems index definerOrder' resourceVersionS list group) := by
  rw [preferredItems_eq, preferredItems_eq]
  cases parsedGroupVersion group with
  | none => rfl
  | some gv =>
    dsimp only
    rw [contents_specComplete, contents_specComplete,
      forestNodes_flat (enumAPIResourcesLocked_flat _ _ _ _ _),
      forestNodes_flat (enumAPIResourcesLocked_flat _ _ _ _ _)]
    congr 1
    simpa only [List.map_map] using congrArg (List.map fun node => ([node.1], node.2))
      (enumAPIResourcesLocked_agree index definerOrder definerOrder' list gv group.apiResources)

theorem listWithSubresourcesFrom_contents_perm (index : Index) (order order' : IterationOrder)
    (resourceVersionS : String) (groupList : List APIGroup) :
    ∀ (list : Nat) (resourceList : List APIResourceList),
      ∃ items items',
        listWithSubresourcesFrom index order resourceVersionS groupList list resourceList =
          some items ∧
        listWithSubresourcesFrom index order' resourceVersionS groupList list resourceList =
          some items' ∧
        List.Perm (contents items) (contents items')
  | _, [] => ⟨[], [], rfl, rfl, .refl _⟩
  | list, group :: rest => by
    obtain ⟨items, items', found, found', perm⟩ :=
      groupItems_contents_perm index order order' resourceVersionS groupList list group
    obtain ⟨more, more', foundMore, foundMore', permMore⟩ :=
      listWithSubresourcesFrom_contents_perm index order order' resourceVersionS groupList
        (list + 1) rest
    refine ⟨items ++ more, items' ++ more', ?_, ?_, ?_⟩
    · simp [listWithSubresourcesFrom, found, foundMore]
    · simp [listWithSubresourcesFrom, found', foundMore']
    · rw [contents_append, contents_append]
      exact perm.append permMore

theorem listSansSubresourcesFrom_contents (index : Index)
    (definerOrder definerOrder' : RangeOrder (Nat × Nat)) (resourceVersionS : String) :
    ∀ (list : Nat) (resourceList : List APIResourceList),
      contents (listSansSubresourcesFrom index definerOrder resourceVersionS list resourceList) =
        contents (listSansSubresourcesFrom index definerOrder' resourceVersionS list resourceList)
  | _, [] => rfl
  | list, group :: rest => by
    rw [listSansSubresourcesFrom, listSansSubresourcesFrom, contents_append, contents_append,
      preferredItems_contents index definerOrder definerOrder',
      listSansSubresourcesFrom_contents index definerOrder definerOrder' resourceVersionS
        (list + 1) rest]

/-- `List` gives the same answer whatever orders its map loops take, once the order of every
list in the answer is forgotten: the same items, with the same specs at the same paths below
each, and the same definers on each spec. -/
theorem listItems_contents_perm (includeSubresources : Bool) (index : Index)
    (order order' : IterationOrder) (resourceVersionS : String) (feed : Discovery) :
    ∃ items items',
      listItems includeSubresources index order resourceVersionS feed = some items ∧
      listItems includeSubresources index order' resourceVersionS feed = some items' ∧
      List.Perm (contents items) (contents items') := by
  cases includeSubresources
  · exact ⟨_, _, rfl, rfl, .of_eq (listSansSubresourcesFrom_contents index order.definerSets
      order'.definerSets resourceVersionS 0 feed.preferred)⟩
  · exact listWithSubresourcesFrom_contents_perm index order order' resourceVersionS feed.groups 0
      feed.resources

end ApiWatch.Unordered
