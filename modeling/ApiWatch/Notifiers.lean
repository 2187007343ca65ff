import ApiWatch.Definers

/-!
# The invalidation notifiers and the definer index

`NewAPIResourceInformer` registers one handler on each invalidation notifier.  An addition or
an update calls `InvalidateWithDefiner` with the new object and `set` true, and a deletion
calls it with the deleted object and `set` false, unwrapping the `DeletedFinalStateUnknown`
an informer hands over when it missed the deletion itself.  Only a notifier that is also a
`ResourceDefinitionSupplier` passes a supplier; for the others the call just invalidates.

A supplier's notifier is meant to deliver `metav1.Object`s: the handler asserts that it
does and panics otherwise, so in a run every object a supplier's notifier delivered has a
name.  Each notifier is an informer, so what it knows is its store: the last delivery for a
key says whether an object is filed under it, and which.  The index is meant to hold the
definitions of the definer objects those stores hold.  The index keys a definer by its
`objectID`: the API version and kind its supplier reads off it, and its name.  The
namespace and the notifier play no part in it.  So this holds when an `objectID` tells its
informer entry, as it does for cluster-scoped definers of kinds one notifier each delivers.
Under that hypothesis, every run keeps the index equal to the stores' definitions: each live
definer's entry is, without repeats, what its supplier enumerates for the object the store
holds, and a definer is listed for a resource exactly when a live definer object defines it.
The `Definers` that `List` attaches to a resource are therefore read off the stores.
-/

namespace ApiWatch.Notifiers

open ApiWatch.Schema ApiWatch.Metav1 ApiWatch.DefinerIndex ApiWatch.Catalog ApiWatch.Definers

variable {Obj : Type}

/-! ## The handlers -/

/-- What a `ResourceDefinitionSupplier` reads off an object: `GetGVK(obj)`, and the resources
`EnumerateDefinedResources(obj)` yields. -/
structure Supplier (Obj : Type) where
  getGVK : Obj → GroupVersionKind
  enumerate : Obj → List GroupVersionResource

/-- An invalidation notifier: the supplier `invalidator.(ResourceDefinitionSupplier)` gives,
or none when it is not one. -/
structure Notifier (Obj : Type) where
  supplier : Option (Supplier Obj)

/-- What `DeleteFunc` receives: the object, or the `DeletedFinalStateUnknown` with the key
and the last known state of an object whose deletion the informer missed. -/
inductive Deleted (Obj : Type) where
  | object (obj : Obj)
  | tombstone (key : String) (obj : Obj)

/-- `if del, ok := obj.(DeletedFinalStateUnknown); ok { obj = del.Obj }`. -/
def Deleted.obj : Deleted Obj → Obj
  | .object obj => obj
  | .tombstone _ obj => obj

/-- A notification an informer delivers to its handler. -/
inductive Delivery (Obj : Type) where
  | add (obj : Obj)
  | update (oldObj newObj : Obj)
  | delete (deleted : Deleted Obj)

/-- The object and supplier `InvalidateWithDefiner` receives, as `invalidateWithDefinerLocked`
reads them; none when the notifier is not a supplier.  `name` is `GetName()` of a value that
is a `metav1.Object`, and none for any other. -/
def notification (name : Obj → Option String) (supplier : Option (Supplier Obj)) (obj : Obj) :
    Option Notification :=
  supplier.map fun supplier => ⟨supplier.getGVK obj, name obj, supplier.enumerate obj⟩

/-- The `ResourceEventHandlerFuncs` that `NewAPIResourceInformer` registers on a notifier: the
call each delivery makes. -/
def handle (name : Obj → Option String) (notifier : Notifier Obj) : Delivery Obj → Action
  | .add obj => .invalidateWithDefiner (notification name notifier.supplier obj) true
  | .update _ newObj => .invalidateWithDefiner (notification name notifier.supplier newObj) true
  | .delete deleted =>
    .invalidateWithDefiner (notification name notifier.supplier deleted.obj) false

/-- The object a delivery leaves the handler with: the new one of an update, and the
unwrapped one of a deletion. -/
def Delivery.obj : Delivery Obj → Obj
  | .add obj => obj
  | .update _ newObj => newObj
  | .delete deleted => deleted.obj

/-- Whether the object is still there after the delivery: the `set` the handler passes. -/
def Delivery.set : Delivery Obj → Bool
  | .delete _ => false
  | _ => true

theorem handle_eq (name : Obj → Option String) (notifier : Notifier Obj) (delivery : Delivery Obj) :
    handle name notifier delivery =
      .invalidateWithDefiner (notification name notifier.supplier delivery.obj) delivery.set := by
  cases delivery <;> rfl

/-! ## Runs with notifiers -/

/-- Whether a call can reach the catalog other than through a notifier's handler: the
`Invalidatable` that `NewAPIResourceInformer` returns exposes `Invalidate` only, so
`InvalidateWithDefiner` is the handlers' alone. -/
def fromOutside : Action → Bool
  | .invalidateWithDefiner _ _ => false
  | _ => true

/-- A step of the system around the catalog: a call from outside, or the `notifier`-th
notifier's delivery, which its handler turns into one `InvalidateWithDefiner` critical
section. -/
inductive Source (Obj : Type) where
  | catalog (event : Event) (outside : fromOutside event.action = true)
  | deliver (time : Nat) (notifier : Nat) (delivery : Delivery Obj)

/-- The catalog event a step is. -/
def Source.event (notifiers : Nat → Notifier Obj) (name : Obj → Option String) : Source Obj → Event
  | .catalog event _ => event
  | .deliver time notifier delivery => ⟨time, handle name (notifiers notifier) delivery⟩

/-- The step's delivery to the `notifier`-th notifier's handler about the object filed under
`entry`, if it is one. -/
def Source.deliveryAt (key : Obj → String) (notifier : Nat) (entry : String) :
    Source Obj → Option (Delivery Obj)
  | .deliver _ other delivery =>
    if other = notifier ∧ key delivery.obj = entry then some delivery else none
  | .catalog _ _ => none

/-- What the `notifier`-th notifier's informer holds under `entry` after the steps: the object
of the last delivery for it, unless that was a deletion. -/
def store (key : Obj → String) (sources : List (Source Obj)) (notifier : Nat) (entry : String) :
    Option Obj :=
  (sources.reverse.findSome? (Source.deliveryAt key notifier entry)).bind fun delivery =>
    if delivery.set then some delivery.obj else none

/-- The `objectID` the index files a supplier's object under; none when the object is not a
`metav1.Object`. -/
def objectIDOf (name : Obj → Option String) (supplier : Supplier Obj) (obj : Obj) :
    Option ObjectID :=
  (name obj).map fun name =>
    ⟨(supplier.getGVK obj).toAPIVersionAndKind.1, (supplier.getGVK obj).toAPIVersionAndKind.2, name⟩

/-- Every object a supplier's notifier delivered is a `metav1.Object`, with an `objectID`. -/
def Filed (notifiers : Nat → Notifier Obj) (name : Obj → Option String)
    (sources : List (Source Obj)) : Prop :=
  ∀ time notifier delivery supplier, Source.deliver time notifier delivery ∈ sources →
    (notifiers notifier).supplier = some supplier →
    ∃ oid, objectIDOf name supplier delivery.obj = some oid

/-- The `objectID` of a delivered object tells its informer entry: two objects suppliers
delivered share an `objectID` exactly when one notifier delivered both under one key. -/
def IdsIdentify (notifiers : Nat → Notifier Obj) (name : Obj → Option String)
    (key : Obj → String) (sources : List (Source Obj)) : Prop :=
  ∀ time notifier delivery time' notifier' delivery' supplier supplier' oid oid',
    Source.deliver time notifier delivery ∈ sources →
    Source.deliver time' notifier' delivery' ∈ sources →
    (notifiers notifier).supplier = some supplier →
    (notifiers notifier').supplier = some supplier' →
    objectIDOf name supplier delivery.obj = some oid →
    objectIDOf name supplier' delivery'.obj = some oid' →
    (oid = oid' ↔ notifier = notifier' ∧ key delivery.obj = key delivery'.obj)

/-- The index the stores call for: each definer object a supplier's store holds has an
`objectID`, and is filed under it with what its supplier enumerates, without repeats; and a
definer is listed for a resource exactly when a held definer object with that `objectID`
defines it. -/
structure Reflects (notifiers : Nat → Notifier Obj) (name : Obj → Option String)
    (key : Obj → String) (sources : List (Source Obj)) (index : Index) : Prop where
  filed : ∀ notifier supplier entry obj, (notifiers notifier).supplier = some supplier →
    store key sources notifier entry = some obj → ∃ oid, objectIDOf name supplier obj = some oid
  held : ∀ notifier supplier entry obj oid, (notifiers notifier).supplier = some supplier →
    store key sources notifier entry = some obj → objectIDOf name supplier obj = some oid →
    index.definerToRscs oid = (supplier.enumerate obj).dedup
  listed : ∀ oid gvr, oid ∈ index.rscToDefiners gvr ↔
    ∃ notifier supplier entry obj, (notifiers notifier).supplier = some supplier ∧
      store key sources notifier entry = some obj ∧ objectIDOf name supplier obj = some oid ∧
      gvr ∈ supplier.enumerate obj

/-- Every spec `enumAPIResourcesLocked` builds on `index` carries one `Definer` for each
definer object a supplier's store holds that defines the resource's full name (its group, its
own version or else the list's, and its name): each `objectID` once, in the order the loop over
the set visits them, and no other. -/
def AttachesStored (notifiers : Nat → Notifier Obj) (name : Obj → Option String)
    (key : Obj → String) (sources : List (Source Obj)) (index : Index) : Prop :=
  ∀ (definerOrder : Go.RangeOrder (Nat × Nat)) (list : Nat) (gv : GroupVersion) (position : Nat)
    (rsc : APIResource),
    ∃ definers : List ObjectID, definers.Nodup ∧
      (∀ oid, oid ∈ definers ↔
        ∃ notifier supplier entry obj, (notifiers notifier).supplier = some supplier ∧
          store key sources notifier entry = some obj ∧ objectIDOf name supplier obj = some oid ∧
          ⟨gv.group, if rsc.version = "" then gv.version else rsc.version, rsc.name⟩ ∈
            supplier.enumerate obj) ∧
      (Enumerate.resourceSpec index definerOrder list gv position rsc).definers =
        definers.map fun definer => ⟨definer.kind, definer.name⟩

/-! ## Declarations read off the stores -/

@[simp]
theorem declaration_notification_none (oid : ObjectID) (name : Obj → Option String) (obj : Obj)
    (set : Bool) : declaration oid (.invalidateWithDefiner (notification name none obj) set) = none :=
  rfl

/-- A supplier's notification declares about the object's own `objectID`. -/
@[simp]
theorem declaration_notification (oid : ObjectID) (name : Obj → Option String)
    (supplier : Supplier Obj) (obj : Obj) (set : Bool) :
    declaration oid (.invalidateWithDefiner (notification name (some supplier) obj) set) =
      if objectIDOf name supplier obj = some oid then some (if set then supplier.enumerate obj else [])
      else none :=
  rfl

theorem declaration_of_fromOutside {action : Action} (outside : fromOutside action = true)
    (oid : ObjectID) : declaration oid action = none := by
  cases action <;> first | rfl | cases outside

/-- `findSome?` through a search that finds the same elements, read through `map`. -/
theorem findSome?_eq_map {α β γ : Type _} {first : α → Option β} {second : α → Option γ}
    (read : γ → β) :
    ∀ {list : List α}, (∀ x ∈ list, first x = (second x).map read) →
      list.findSome? first = (list.findSome? second).map read
  | [], _ => rfl
  | x :: rest, same => by
    rw [List.findSome?_cons, List.findSome?_cons, same x (List.mem_cons_self _ _)]
    cases second x with
    | some _ => rfl
    | none => exact findSome?_eq_map read fun y mem => same y (List.mem_cons_of_mem _ mem)

section Stores

variable {notifiers : Nat → Notifier Obj} {name : Obj → Option String} {key : Obj → String}
  {sources : List (Source Obj)}

/-- A run that does not panic was delivered only `metav1.Object`s by its suppliers' notifiers. -/
theorem filed_of_exec {cfg : Config} {rt : Runtime}
    (run : exec cfg init (sources.map (Source.event notifiers name)) = some rt) :
    Filed notifiers name sources := fun time notifier delivery supplier mem supplied =>
  exec_filed run _ (List.mem_map_of_mem _ mem)
    ⟨supplier.getGVK delivery.obj, name delivery.obj, supplier.enumerate delivery.obj⟩
    delivery.set (by rw [Source.event, handle_eq, supplied]; rfl)

/-- An object a store holds is the object of a delivery of its notifier under that entry. -/
theorem store_eq_some {notifier : Nat} {entry : String} {obj : Obj}
    (stored : store key sources notifier entry = some obj) :
    ∃ time delivery, Source.deliver time notifier delivery ∈ sources ∧
      key delivery.obj = entry ∧ delivery.obj = obj := by
  obtain ⟨delivery, found, kept⟩ := Option.bind_eq_some.1 stored
  obtain ⟨src, mem, hit⟩ := List.exists_of_findSome?_eq_some found
  cases src with
  | catalog => cases hit
  | deliver time other delivered =>
    simp only [Source.deliveryAt] at hit
    split_ifs at hit with here
    cases hit
    obtain ⟨rfl, entered⟩ := here
    split_ifs at kept
    exact ⟨time, _, List.mem_reverse.1 mem, entered, Option.some.inj kept⟩

/-- A definer that declares a resource in a run is the `objectID` of a supplier's delivery. -/
theorem delivered_of_mem_declared {oid : ObjectID} {gvr : GroupVersionResource}
    (defines : gvr ∈ declared (sources.map (Source.event notifiers name)) oid) :
    ∃ time notifier supplier held, Source.deliver time notifier held ∈ sources ∧
      (notifiers notifier).supplier = some supplier ∧
        objectIDOf name supplier held.obj = some oid := by
  rw [declared] at defines
  cases found : (sources.map (Source.event notifiers name)).reverse.findSome?
    fun event => declaration oid event.action with
  | none => simp [found] at defines
  | some defined =>
    obtain ⟨event, inRun, hit⟩ := List.exists_of_findSome?_eq_some found
    obtain ⟨src, mem, rfl⟩ := List.mem_map.1 (List.mem_reverse.1 inRun)
    cases src with
    | catalog event outside => cases (declaration_of_fromOutside outside oid).symm.trans hit
    | deliver time notifier held =>
      simp only [Source.event, handle_eq] at hit
      cases supplied : (notifiers notifier).supplier with
      | none => simp [supplied] at hit
      | some supplier =>
        simp only [supplied, declaration_notification] at hit
        split_ifs at hit with named <;> exact ⟨time, notifier, supplier, held, mem, supplied, named⟩

variable (identify : IdsIdentify notifiers name key sources) (filed : Filed notifiers name sources)
include identify filed

/-- Each step declares about the `objectID` of an object the `notifier`-th notifier delivered
under `entry` just what that notifier's deliveries under `entry` say. -/
theorem declaration_eq_deliveryAt {notifier : Nat} {supplier : Supplier Obj}
    (supplied : (notifiers notifier).supplier = some supplier) {time : Nat}
    {held : Delivery Obj} (heldMem : Source.deliver time notifier held ∈ sources) {oid : ObjectID}
    (heldId : objectIDOf name supplier held.obj = some oid) :
    ∀ src ∈ sources, declaration oid (src.event notifiers name).action =
      (src.deliveryAt key notifier (key held.obj)).map fun delivery =>
        if delivery.set then supplier.enumerate delivery.obj else [] := by
  intro src mem
  cases src with
  | catalog event outside => exact declaration_of_fromOutside outside _
  | deliver time' other delivery =>
    rw [Source.event, handle_eq]
    cases suppliedOther : (notifiers other).supplier with
    | none =>
      have apart : other ≠ notifier := fun same => by
        rw [same, supplied] at suppliedOther
        cases suppliedOther
      simp [Source.deliveryAt, apart]
    | some supplier' =>
      obtain ⟨oid', filedOther⟩ := filed time' other delivery supplier' mem suppliedOther
      simp only [declaration_notification, Source.deliveryAt, filedOther, Option.some.injEq,
        identify time' other delivery time notifier held supplier' supplier oid' oid mem heldMem
          suppliedOther supplied filedOther heldId]
      by_cases here : other = notifier ∧ key delivery.obj = key held.obj
      · rw [here.1] at suppliedOther
        obtain rfl := Option.some.inj (suppliedOther.symm.trans supplied)
        simp only [if_pos here, Option.map_some']
      · simp only [if_neg here, Option.map_none']

/-- The latest declaration of a delivered definer is what its notifier's store holds under its
entry, as its supplier enumerates it. -/
theorem declared_eq_store {notifier : Nat} {supplier : Supplier Obj}
    (supplied : (notifiers notifier).supplier = some supplier) {time : Nat}
    {held : Delivery Obj} (heldMem : Source.deliver time notifier held ∈ sources) {oid : ObjectID}
    (heldId : objectIDOf name supplier held.obj = some oid) :
    declared (sources.map (Source.event notifiers name)) oid =
      ((store key sources notifier (key held.obj)).map supplier.enumerate).getD [] := by
  have same : sources.reverse.findSome? (fun src =>
      declaration oid (src.event notifiers name).action) =
      (sources.reverse.findSome? (Source.deliveryAt key notifier (key held.obj))).map
        fun delivery => if delivery.set then supplier.enumerate delivery.obj else [] :=
    findSome?_eq_map _ fun src mem =>
      declaration_eq_deliveryAt identify filed supplied heldMem heldId src (List.mem_reverse.1 mem)
  simp only [declared, ← List.map_reverse, List.findSome?_map, Function.comp_def]
  rw [same, store]
  cases sources.reverse.findSome? (Source.deliveryAt key notifier (key held.obj)) with
  | none => rfl
  | some delivery => by_cases live : delivery.set <;> simp [live]

theorem declared_of_stored {notifier : Nat} {supplier : Supplier Obj}
    (supplied : (notifiers notifier).supplier = some supplier) {entry : String} {obj : Obj}
    (stored : store key sources notifier entry = some obj) {oid : ObjectID}
    (filedAs : objectIDOf name supplier obj = some oid) :
    declared (sources.map (Source.event notifiers name)) oid = supplier.enumerate obj := by
  obtain ⟨time, delivery, mem, rfl, rfl⟩ := store_eq_some stored
  rw [declared_eq_store identify filed supplied mem filedAs, stored]
  rfl

/-- The stores' view of the index, read off the latest declarations. -/
theorem reflects_of_declares {index : Index}
    (declares : Declares (sources.map (Source.event notifiers name)) index) :
    Reflects notifiers name key sources index where
  filed notifier supplier _ _ supplied stored := by
    obtain ⟨time, delivery, mem, -, rfl⟩ := store_eq_some stored
    exact filed time notifier delivery supplier mem supplied
  held _ _ _ _ _ supplied stored filedAs := by
    rw [declares.latest, declared_of_stored identify filed supplied stored filedAs]
  listed oid gvr := by
    rw [declares.mem_rscToDefiners]
    constructor
    · intro defined
      obtain ⟨time, notifier, supplier, held, mem, supplied, heldId⟩ :=
        delivered_of_mem_declared defined
      rw [declared_eq_store identify filed supplied mem heldId] at defined
      cases stored : store key sources notifier (key held.obj) with
      | none => simp [stored] at defined
      | some obj =>
        obtain ⟨time', delivery, mem', entered, rfl⟩ := store_eq_some stored
        obtain ⟨oid', filedAs⟩ := filed time' notifier delivery supplier mem' supplied
        have same : oid' = oid :=
          (identify _ _ _ _ _ _ _ _ _ _ mem' mem supplied supplied filedAs heldId).2 ⟨rfl, entered⟩
        exact ⟨notifier, supplier, _, _, supplied, stored, same ▸ filedAs,
          by simpa [stored] using defined⟩
    · rintro ⟨notifier, supplier, entry, obj, supplied, stored, filedAs, defines⟩
      rwa [declared_of_stored identify filed supplied stored filedAs]

/-- The definers `List` attaches to a resource are the held definer objects that define it. -/
theorem attachesStored_of_declares {index : Index}
    (declares : Declares (sources.map (Source.event notifiers name)) index) :
    AttachesStored notifiers name key sources index := by
  intro definerOrder list gv position rsc
  let gvr : GroupVersionResource :=
    ⟨gv.group, if rsc.version = "" then gv.version else rsc.version, rsc.name⟩
  have visited := definerOrder.visit_perm (list, position) (index.rscToDefiners gvr)
  exact ⟨_, visited.nodup_iff.2 (declares.mirrored.1 gvr),
    fun oid => visited.mem_iff.trans ((reflects_of_declares identify filed declares).listed oid gvr),
    rfl⟩

end Stores

/-- Whatever the order of deliveries and client calls, a run keeps the definer index what the
notifiers' stores call for, and `List` attaches to each resource the held definer objects that
define it, as long as an `objectID` tells a delivered object's informer entry. -/
theorem index_reflects_stores {notifiers : Nat → Notifier Obj} {name : Obj → Option String}
    {key : Obj → String} {sources : List (Source Obj)} {cfg : Config} {rt : Runtime}
    (run : exec cfg init (sources.map (Source.event notifiers name)) = some rt)
    (identify : IdsIdentify notifiers name key sources) :
    Reflects notifiers name key sources rt.index ∧
      AttachesStored notifiers name key sources rt.index :=
  have declares := exec_declares run
  have filed := filed_of_exec run
  ⟨reflects_of_declares identify filed declares, attachesStored_of_declares identify filed declares⟩

/-- A notifier of custom resource definitions adds the definitions of `widgets` and
`gadgets`, updates the first and deletes the second.  A value is here the name of the
object it is, or none when it is not a `metav1.Object`. -/
theorem index_reflects_stores_crd :
    let notifiers : Nat → Notifier (Option String) := fun _ => ⟨some ⟨fun _ =>
      ⟨"apiextensions.k8s.io", "v1", "CustomResourceDefinition"⟩,
      fun obj => [⟨"example.com", "v1", obj.getD ""⟩]⟩⟩
    let key : Option String → String := fun obj => obj.getD ""
    let sources : List (Source (Option String)) :=
      [.deliver 0 0 (.add (some "widgets")), .deliver 1 0 (.add (some "gadgets")),
        .deliver 2 0 (.update (some "widgets") (some "widgets")),
        .deliver 3 0 (.delete (.object (some "gadgets")))]
    ∃ rt, exec ⟨"kind", true, fun _ => .none⟩ init (sources.map (Source.event notifiers id)) =
        some rt ∧
      IdsIdentify notifiers id key sources ∧ Reflects notifiers id key sources rt.index ∧
      AttachesStored notifiers id key sources rt.index := by
  intro notifiers key sources
  have identify : IdsIdentify notifiers id key sources := by
    intro _ _ _ _ _ _ _ _ _ _ first second supplied supplied' filedAs filedAs'
    cases supplied
    cases supplied'
    simp only [sources, List.mem_cons, Source.deliver.injEq, List.mem_singleton,
      List.not_mem_nil, or_false] at first second
    rcases first with ⟨-, rfl, rfl⟩ | ⟨-, rfl, rfl⟩ | ⟨-, rfl, rfl⟩ | ⟨-, rfl, rfl⟩ <;>
    rcases second with ⟨-, rfl, rfl⟩ | ⟨-, rfl, rfl⟩ | ⟨-, rfl, rfl⟩ | ⟨-, rfl, rfl⟩ <;>
    · obtain rfl := Option.some.inj filedAs
      obtain rfl := Option.some.inj filedAs'
      decide
  exact ⟨_, rfl, identify, @index_reflects_stores (Option String) notifiers id key sources
    ⟨"kind", true, fun _ => .none⟩ _ (by rfl) identify⟩

end ApiWatch.Notifiers
