import ApiWatch.Api
import Mathlib.Data.List.Nodup

/-!
# Nested spec forests

`List` answers with specs that nest their subresource specs.  `forestNodes` flattens such
a forest into its specs, each paired with the path of names from the forest's root down
to it.  The facts proved here hold of every forest, however it was built: flattening
commutes with reordering up to permutation, every path strictly extends the base, and
when the paths are distinct the subresources of a spec are exactly the specs one step
below it.  The tree builder's theorems are stated on this flattening.
-/

namespace ApiWatch.SpecForest

open ApiWatch.Ksmetav1a1

mutual
/-- Every spec of a nested spec with the path of names that leads to it from `base`. -/
def nodes (base : List String) : APIResourceSpec → List (List String × APIResourceSpec)
  | spec@⟨name, _, _, _, _, _, _, _, subResources⟩ =>
    (base ++ [name], spec) :: forestNodes (base ++ [name]) subResources

/-- `nodes` of every spec of a list, in order. -/
def forestNodes (base : List String) :
    List APIResourceSpec → List (List String × APIResourceSpec)
  | [] => []
  | spec :: rest => nodes base spec ++ forestNodes base rest
end

@[simp]
theorem forestNodes_nil (base : List String) : forestNodes base [] = [] := by
  simp [forestNodes]

@[simp]
theorem forestNodes_cons (base : List String) (spec : APIResourceSpec)
    (rest : List APIResourceSpec) :
    forestNodes base (spec :: rest) = nodes base spec ++ forestNodes base rest := by
  simp [forestNodes]

@[simp]
theorem nodes_eq (base : List String) (spec : APIResourceSpec) :
    nodes base spec =
      (base ++ [spec.name], spec) :: forestNodes (base ++ [spec.name]) spec.subResources := by
  cases spec
  simp [nodes]

theorem forestNodes_append (base : List String) (left right : List APIResourceSpec) :
    forestNodes base (left ++ right) = forestNodes base left ++ forestNodes base right := by
  induction left with
  | nil => simp
  | cons spec rest ih => simp [ih]

/-- Reordering a forest reorders its nodes. -/
theorem forestNodes_perm {base : List String} {left right : List APIResourceSpec}
    (perm : List.Perm left right) :
    List.Perm (forestNodes base left) (forestNodes base right) := by
  induction perm with
  | nil => simp
  | cons spec _ ih => simpa using ih.append_left _
  | swap first second rest =>
    simp only [forestNodes_cons, ← List.append_assoc]
    exact List.perm_append_comm.append_right _
  | trans _ _ ih₁ ih₂ => exact ih₁.trans ih₂

/-- `path` is `parent` with one more name. -/
def ChildPath (parent path : List String) : Prop := ∃ last, path = parent ++ [last]

theorem childPath_iff {parent path : List String} :
    ChildPath parent path ↔ path ≠ [] ∧ path.dropLast = parent := by
  constructor
  · rintro ⟨last, rfl⟩
    simp
  · rintro ⟨nonempty, dropped⟩
    exact ⟨path.getLast nonempty, by rw [← dropped, List.dropLast_append_getLast]⟩

instance (parent path : List String) : Decidable (ChildPath parent path) :=
  decidable_of_iff _ childPath_iff.symm

theorem sizeOf_subResources_lt (spec : APIResourceSpec) :
    sizeOf spec.subResources < sizeOf spec := by
  cases spec
  simp only [APIResourceSpec.mk.sizeOf_spec]
  omega

/-- The recursion of the theorems below into a root's subresources, and into the other roots,
goes down in size. -/
theorem sizeOf_subResources_lt_cons (root : APIResourceSpec) (more : List APIResourceSpec) :
    sizeOf root.subResources < sizeOf (root :: more) := by
  have := sizeOf_subResources_lt root
  simp only [List.cons.sizeOf_spec]
  omega

theorem sizeOf_lt_cons (root : APIResourceSpec) (more : List APIResourceSpec) :
    sizeOf more < sizeOf (root :: more) := by
  simp only [List.cons.sizeOf_spec]
  omega

/-- Every path of a forest strictly extends its base. -/
theorem mem_forestNodes_extends :
    ∀ {base : List String} {forest : List APIResourceSpec} {path : List String}
      {spec : APIResourceSpec},
      (path, spec) ∈ forestNodes base forest → ∃ rest, rest ≠ [] ∧ path = base ++ rest
  | _, [], _, _, mem => by simp at mem
  | base, root :: more, path, spec, mem => by
    simp only [forestNodes_cons, nodes_eq, List.cons_append, List.mem_cons, Prod.mk.injEq,
      List.mem_append] at mem
    rcases mem with ⟨rfl, -⟩ | mem | mem
    · exact ⟨[root.name], by simp, rfl⟩
    · obtain ⟨rest, -, rfl⟩ := mem_forestNodes_extends mem
      exact ⟨root.name :: rest, by simp, by simp⟩
    · exact mem_forestNodes_extends mem
termination_by _ forest => sizeOf forest
decreasing_by
  · exact sizeOf_subResources_lt_cons root more
  · exact sizeOf_lt_cons root more

/-- A node of a forest is a root of it, or a subresource of another node one name up. -/
theorem mem_forestNodes_parent :
    ∀ {base : List String} {forest : List APIResourceSpec} {path : List String}
      {spec : APIResourceSpec},
      (path, spec) ∈ forestNodes base forest →
        (path = base ++ [spec.name] ∧ spec ∈ forest) ∨
        ∃ parentPath parent, (parentPath, parent) ∈ forestNodes base forest ∧
          spec ∈ parent.subResources ∧ path = parentPath ++ [spec.name]
  | _, [], _, _, mem => by simp at mem
  | base, root :: more, path, spec, mem => by
    have rootMem : (base ++ [root.name], root) ∈ forestNodes base (root :: more) := by simp
    have lift : ∀ {node}, node ∈ forestNodes (base ++ [root.name]) root.subResources →
        node ∈ forestNodes base (root :: more) := fun mem => by simp [mem]
    have liftMore : ∀ {node}, node ∈ forestNodes base more →
        node ∈ forestNodes base (root :: more) := fun mem => by simp [mem]
    simp only [forestNodes_cons, nodes_eq, List.cons_append, List.mem_cons, Prod.mk.injEq,
      List.mem_append] at mem
    rcases mem with ⟨rfl, rfl⟩ | mem | mem
    · exact .inl ⟨rfl, by simp⟩
    · rcases mem_forestNodes_parent mem with ⟨rfl, sub⟩ | ⟨_, _, parentMem, sub, rfl⟩
      · exact .inr ⟨_, _, rootMem, sub, rfl⟩
      · exact .inr ⟨_, _, lift parentMem, sub, rfl⟩
    · rcases mem_forestNodes_parent mem with ⟨rfl, sub⟩ | ⟨_, _, parentMem, sub, rfl⟩
      · exact .inl ⟨rfl, by simp [sub]⟩
      · exact .inr ⟨_, _, liftMore parentMem, sub, rfl⟩
termination_by _ forest => sizeOf forest
decreasing_by
  · exact sizeOf_subResources_lt_cons root more
  · exact sizeOf_lt_cons root more

/-- The nodes below a node form a sublist of the forest's nodes. -/
theorem forestNodes_sublist_of_mem :
    ∀ {base : List String} {forest : List APIResourceSpec} {path : List String}
      {spec : APIResourceSpec},
      (path, spec) ∈ forestNodes base forest →
        List.Sublist (forestNodes path spec.subResources) (forestNodes base forest)
  | _, [], _, _, mem => by simp at mem
  | base, root :: more, path, spec, mem => by
    have below : List.Sublist (forestNodes (base ++ [root.name]) root.subResources)
        (forestNodes base (root :: more)) := by
      simp only [forestNodes_cons, nodes_eq, List.cons_append]
      exact (List.sublist_append_left _ _).cons _
    simp only [forestNodes_cons, nodes_eq, List.cons_append, List.mem_cons, Prod.mk.injEq,
      List.mem_append] at mem
    rcases mem with ⟨rfl, rfl⟩ | mem | mem
    · exact below
    · exact (forestNodes_sublist_of_mem mem).trans below
    · exact (forestNodes_sublist_of_mem mem).trans (by simp)
termination_by _ forest => sizeOf forest
decreasing_by
  · exact sizeOf_subResources_lt_cons root more
  · exact sizeOf_lt_cons root more

/-- The roots of a forest, with their paths, are a sublist of its nodes. -/
theorem roots_sublist (base : List String) (forest : List APIResourceSpec) :
    List.Sublist (forest.map fun spec => (base ++ [spec.name], spec))
      (forestNodes base forest) := by
  induction forest with
  | nil => simp
  | cons spec rest ih =>
    simp only [List.map_cons, forestNodes_cons, nodes_eq, List.cons_append]
    exact (ih.trans (List.sublist_append_right _ _)).cons₂ _

/--
When a forest's paths are distinct, the subresources of each of its specs are, with
their paths, exactly the forest's nodes one name below that spec.
-/
theorem subResources_perm_children {base : List String} {forest : List APIResourceSpec}
    {path : List String} {spec : APIResourceSpec}
    (distinct : ((forestNodes base forest).map Prod.fst).Nodup)
    (mem : (path, spec) ∈ forestNodes base forest) :
    List.Perm (spec.subResources.map fun child => (path ++ [child.name], child))
      ((forestNodes base forest).filter fun node => decide (ChildPath path node.1)) := by
  have allDistinct := List.Nodup.of_map Prod.fst distinct
  have children := (roots_sublist path spec.subResources).trans
    (forestNodes_sublist_of_mem mem)
  refine (List.perm_ext_iff_of_nodup (allDistinct.sublist children)
    (allDistinct.filter _)).2 fun ⟨childPath, child⟩ => ?_
  simp only [List.mem_filter, decide_eq_true_eq]
  constructor
  · intro childMem
    exact ⟨children.subset childMem, by
      obtain ⟨c, -, same⟩ := List.mem_map.1 childMem
      exact ⟨c.name, (Prod.mk.inj same).1.symm⟩⟩
  · rintro ⟨childMem, last, rfl⟩
    rcases mem_forestNodes_parent childMem with ⟨same, -⟩ | ⟨parentPath, parent, pmem, sub, same⟩
    · obtain ⟨rest, nonempty, rfl⟩ := mem_forestNodes_extends mem
      simp only [List.append_assoc, List.append_right_inj] at same
      cases rest with
      | nil => exact absurd rfl nonempty
      | cons _ _ => simp at same
    · obtain ⟨rfl, lastEq⟩ := List.append_inj' same rfl
      obtain rfl : last = child.name := by simpa using lastEq
      obtain rfl := (Prod.mk.inj (List.inj_on_of_nodup_map distinct pmem mem rfl)).2
      exact List.mem_map.2 ⟨child, sub, rfl⟩

end ApiWatch.SpecForest
