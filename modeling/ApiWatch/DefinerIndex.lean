import ApiWatch.Api
import Mathlib.Data.List.Dedup

/-!
# The definer index

The catalog keeps two mirror maps between the objects that define resources (CRDs and the
like) and the resources they define: `rscToDefiners` and `definerToRscs`.
`invalidateWithDefinerLocked` updates them through `setDefinerLocked`, whose body is not
among the source files; it is modelled here from the spec's description.  A Go set is a
duplicate-free list in storage order, and an absent key is the empty set, so pruning an
emptied entry is built in.
-/

namespace ApiWatch.DefinerIndex

open ApiWatch.Metav1

/-- `objectID`: identifies an object that defines resources. -/
structure ObjectID where
  apiVersion : String
  kind : String
  name : String
deriving DecidableEq, Repr

/-- The catalog's `rscToDefiners` and `definerToRscs`. -/
structure Index where
  rscToDefiners : GroupVersionResource → List ObjectID
  definerToRscs : ObjectID → List GroupVersionResource

/-- The index with no definers, as `NewAPIResourceInformer` creates it. -/
def Index.empty : Index := ⟨fun _ => [], fun _ => []⟩

/--
Modelled from the spec: `setDefinerLocked(oid, enumr)` is not among the source files.  The
spec says it installs the set of resources `enumr` enumerates as the definer's current set:
`oid` leaves the reverse entry of every resource no longer defined, joins that of every
newly defined one, and the forward entry becomes the new set (absent when empty).
-/
def setDefinerLocked (index : Index) (oid : ObjectID) (defined : List GroupVersionResource) :
    Index :=
  let old := index.definerToRscs oid
  let new := defined.dedup
  { rscToDefiners := fun gvr =>
      if gvr ∈ old ∧ gvr ∉ new then (index.rscToDefiners gvr).erase oid
      else if gvr ∈ new ∧ gvr ∉ old then (index.rscToDefiners gvr).insert oid
      else index.rscToDefiners gvr
    definerToRscs := Function.update index.definerToRscs oid new }

/-- The spec's invariant of the index: every set is duplicate-free, and a definer is listed
for a resource exactly when the resource is listed for the definer. -/
def Index.Mirrored (index : Index) : Prop :=
  (∀ gvr, (index.rscToDefiners gvr).Nodup) ∧
    ∀ oid gvr, oid ∈ index.rscToDefiners gvr ↔ gvr ∈ index.definerToRscs oid

theorem Index.empty_mirrored : Index.empty.Mirrored := by
  simp [Index.Mirrored, Index.empty]

theorem setDefinerLocked_rscToDefiners_nodup {index : Index} (mirrored : index.Mirrored)
    (oid : ObjectID) (defined : List GroupVersionResource) (gvr : GroupVersionResource) :
    ((setDefinerLocked index oid defined).rscToDefiners gvr).Nodup := by
  simp only [setDefinerLocked]
  split_ifs
  · exact (mirrored.1 gvr).erase oid
  · exact (mirrored.1 gvr).insert
  · exact mirrored.1 gvr

theorem mem_setDefinerLocked_rscToDefiners {index : Index} (mirrored : index.Mirrored)
    (oid other : ObjectID) (defined : List GroupVersionResource) (gvr : GroupVersionResource) :
    other ∈ (setDefinerLocked index oid defined).rscToDefiners gvr ↔
      if other = oid then gvr ∈ defined.dedup else other ∈ index.rscToDefiners gvr := by
  have mirror := mirrored.2 oid gvr
  have distinct := mirrored.1 gvr
  by_cases same : other = oid
  · subst same
    simp only [setDefinerLocked, if_true]
    split_ifs with dropped added
    · simp [distinct.mem_erase_iff, dropped.2]
    · simp [List.mem_insert_iff, added.1]
    · rw [mirror]
      exact ⟨fun kept => not_not.1 fun gone => dropped ⟨kept, gone⟩,
        fun kept => not_not.1 fun fresh => added ⟨kept, fresh⟩⟩
  · simp only [setDefinerLocked, if_neg same]
    split_ifs
    · simp [distinct.mem_erase_iff, same]
    · simp [List.mem_insert_iff, same]
    · rfl

/-- `setDefinerLocked` keeps the two maps mirrors of each other. -/
theorem setDefinerLocked_mirrored {index : Index} (mirrored : index.Mirrored)
    (oid : ObjectID) (defined : List GroupVersionResource) :
    (setDefinerLocked index oid defined).Mirrored := by
  refine ⟨setDefinerLocked_rscToDefiners_nodup mirrored oid defined, fun other gvr => ?_⟩
  rw [mem_setDefinerLocked_rscToDefiners mirrored]
  by_cases same : other = oid
  · simp [setDefinerLocked, same]
  · simp [setDefinerLocked, same, Function.update_noteq, mirrored.2 other gvr]

end ApiWatch.DefinerIndex
