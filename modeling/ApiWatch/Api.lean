import ApiWatch.Go

/-!
# The API objects the catalog reads and writes

Discovery hands the catalog `metav1.APIGroup`s and `metav1.APIResourceList`s, and the
catalog answers `List` with `ksmetav1a1.APIResource` items.  Each record keeps the fields
the catalog reads or writes and nothing else: `TypeMeta`, labels, the unread fields of
`metav1.APIResource` and the rest of `ObjectMeta` are left out.

`schema.ParseGroupVersion` and `GroupVersionKind.ToAPIVersionAndKind` are the apimachinery
functions the catalog calls; they are written out as that library defines them.
-/

namespace ApiWatch

open ApiWatch.Go

namespace Metav1

/-- `metav1.APIResource`: one resource as discovery reports it. -/
structure APIResource where
  name : String
  singularName : String
  namespaced : Bool
  version : String
  kind : String
  verbs : List String
deriving DecidableEq, Repr

/-- `metav1.APIResourceList`: the resources discovery reports for one group version. -/
structure APIResourceList where
  groupVersion : String
  apiResources : List APIResource
deriving DecidableEq, Repr

/-- `metav1.APIGroup`, with `PreferredVersion.Version` as its only version field. -/
structure APIGroup where
  name : String
  preferredVersion : String
deriving DecidableEq, Repr

/-- `metav1.GroupVersionResource`. -/
structure GroupVersionResource where
  group : String
  version : String
  resource : String
deriving DecidableEq, Repr

/-- `metav1.ListOptions`, with the two fields `Watch` reads; `TimeoutSeconds` is a
pointer in Go, `none` when nil. -/
structure ListOptions where
  resourceVersion : String
  timeoutSeconds : Option Int64
deriving DecidableEq

end Metav1

namespace Schema

/-- `schema.GroupVersion`. -/
structure GroupVersion where
  group : String
  version : String
deriving DecidableEq, Repr

/-- `schema.ParseGroupVersion`: `""` and `"/"` are the empty group version, a string with
no slash is a version of the legacy group, one slash separates group and version, and
more slashes are an error. -/
def parseGroupVersion (text : String) : Except String GroupVersion :=
  if text.isEmpty || text == "/" then .ok ⟨"", ""⟩
  else
    match text.toList.count '/' with
    | 0 => .ok ⟨"", text⟩
    | 1 =>
      .ok ⟨String.mk (text.toList.takeWhile (· ≠ '/')),
        String.mk ((text.toList.dropWhile (· ≠ '/')).drop 1)⟩
    | _ => .error ("unexpected GroupVersion string: " ++ text)

/-- A group version `ParseGroupVersion` accepts has no `/` in either part: the one slash it
allows separates them. -/
theorem parseGroupVersion_slash_free {text : String} {gv : GroupVersion}
    (parsed : parseGroupVersion text = .ok gv) : '/' ∉ gv.group.toList ∧ '/' ∉ gv.version.toList := by
  unfold parseGroupVersion at parsed
  split at parsed
  · cases parsed
    exact ⟨List.not_mem_nil _, List.not_mem_nil _⟩
  · split at parsed
    · cases parsed
      exact ⟨List.not_mem_nil _, List.count_eq_zero.1 ‹_›⟩
    · cases parsed
      rename_i once
      dsimp only [String.toList] at once ⊢
      have before : '/' ∉ text.data.takeWhile (fun c => decide (c ≠ '/')) := fun mem => by
        simpa using List.mem_takeWhile_imp mem
      refine ⟨before, fun mem => ?_⟩
      cases rest : text.data.dropWhile (fun c => decide (c ≠ '/')) with
      | nil => rw [rest] at mem; cases mem
      | cons head tail =>
        have slash : head = '/' := by
          have first := List.head?_dropWhile_not (fun c => decide (c ≠ '/')) text.data
          rw [rest] at first
          simpa using first
        rw [← List.takeWhile_append_dropWhile (fun c => decide (c ≠ '/')) text.data, rest,
          List.count_append, List.count_eq_zero.2 before, slash,
          List.count_cons_self] at once
        rw [rest, List.drop_one, List.tail_cons] at mem
        exact List.count_eq_zero.1 (by omega) mem
    · cases parsed

/-- `schema.GroupResource`. -/
structure GroupResource where
  group : String
  resource : String
deriving DecidableEq, Repr

/-- `schema.GroupVersionKind`. -/
structure GroupVersionKind where
  group : String
  version : String
  kind : String
deriving DecidableEq, Repr

/-- `GroupVersionKind.ToAPIVersionAndKind`: `("", "")` for the empty kind, otherwise
`group/version` (or the bare version for the legacy group) and the kind. -/
def GroupVersionKind.toAPIVersionAndKind (gvk : GroupVersionKind) : String × String :=
  if gvk.group.isEmpty && gvk.version.isEmpty && gvk.kind.isEmpty then ("", "")
  else if gvk.group.isEmpty then (gvk.version, gvk.kind)
  else (gvk.group ++ "/" ++ gvk.version, gvk.kind)

end Schema

namespace Metav1

/-- The errors the catalog and its lister return: `apierrors.NewResourceExpired(message)`,
and `apierrors.NewNotFound(qualifiedResource, name)` with the group, the resource and the
name in its details. -/
inductive StatusError where
  | resourceExpired (message : String)
  | notFound (qualifiedResource : Schema.GroupResource) (name : String)
deriving DecidableEq, Repr

end Metav1

namespace Ksmetav1a1

/-- `ksmetav1a1.Definer`: the kind and name of an object that defines a resource. -/
structure Definer where
  kind : String
  name : String
deriving DecidableEq, Repr

/-- `ksmetav1a1.APIResourceSpec`.  `SubResources` holds pointers in Go; the model holds
the specs themselves. -/
structure APIResourceSpec where
  name : String
  singularName : String
  namespaced : Bool
  group : String
  version : String
  kind : String
  verbs : List String
  definers : List Definer
  subResources : List APIResourceSpec

/-- `ksmetav1a1.APIResource` as `List` builds it: `ObjectMeta.Name`,
`ObjectMeta.ResourceVersion` and the spec. -/
structure APIResource where
  name : String
  resourceVersion : String
  spec : APIResourceSpec

/-- `ksmetav1a1.APIResourceList`: `ListMeta.ResourceVersion` and the items. -/
structure APIResourceList where
  resourceVersion : String
  items : List APIResource

end Ksmetav1a1

end ApiWatch
