import ReactiveView.Proofs.MountedTrees

/-!
# Fields in a tree

A view of a tree is addressed by the positions of children on the way to it, and a field by its view
and its name.  In a tree that is mounted, different fields have different cells, and each view has
one place and, unless it is the root, one call in its parent (`View.WiredBy`).  Writes to fields
change neither, so all this holds after any number of them (`View.Mounted`).
-/

namespace ReactiveView

open List
open Reactive (CellId SubscriptionId Store)

/-- A field of a view of a tree. -/
structure FieldPlace where
  path : List Nat
  field : String
deriving DecidableEq, Repr

namespace View

variable {root v : View} {path : List Nat}

/-! ## Addresses -/

/-- The view at the end of a path of positions. -/
def below? (root : View) (path : List Nat) : Option View := root.get? (path.map .index)

/-- The cell of a field of a tree. -/
def cellAt? (root : View) (place : FieldPlace) : Option CellId :=
  (root.below? place.path).bind (·.cell? place.field)

/-- The value of a field of a tree. -/
def read? (root : View) (w : World) (place : FieldPlace) : Option Json :=
  (root.cellAt? place).map w.store.value

@[simp] theorem below?_nil (root : View) : root.below? [] = some root := rfl

theorem below?_cons (root : View) (i : Nat) (path : List Nat) :
    root.below? (i :: path) = (root.children[i]?).bind (·.below? path) := rfl

theorem below?_append (root : View) (first second : List Nat) :
    root.below? (first ++ second) = (root.below? first).bind (·.below? second) := by
  induction first generalizing root with
  | nil => rfl
  | cons i first ih =>
    rw [cons_append, below?_cons, below?_cons, Option.bind_assoc]
    exact Option.bind_congr fun v _ => ih v

theorem below?_concat {i : Nat} :
    root.below? (path ++ [i]) = some v ↔
      ∃ parent, root.below? path = some parent ∧ parent.children[i]? = some v := by
  rw [below?_append, Option.bind_eq_some_iff]
  simp [below?_cons]

theorem getElem?_children {i : Nat} {key : String}
    (entry : root.keyedChildren[i]? = some (key, v)) : root.children[i]? = some v := by
  rw [children, List.getElem?_map, entry]
  rfl

/-! ## What a tree owns -/

theorem owned_of_mem_children (member : v ∈ root.children) :
    v.ownedCells ⊆ root.ownedCells ∧ v.ownedSubscriptions ⊆ root.ownedSubscriptions := by
  obtain ⟨entry, isEntry, rfl⟩ := mem_map.mp member
  rw [ownedCells_eq root, ownedCellsAll_eq, ownedSubscriptions_eq root, ownedSubscriptionsAll_eq]
  constructor
  · intro c owned
    exact mem_append_right _ (mem_flatMap.mpr ⟨entry, isEntry, owned⟩)
  · intro n owned
    exact mem_append_right _ (mem_flatMap.mpr ⟨entry, isEntry, owned⟩)

/-- A tree owns what its views own. -/
theorem owned_of_get? {path : List PathStep} (reached : root.get? path = some v) :
    v.ownedCells ⊆ root.ownedCells ∧ v.ownedSubscriptions ⊆ root.ownedSubscriptions := by
  induction path generalizing root with
  | nil =>
    cases reached
    exact ⟨fun _ => id, fun _ => id⟩
  | cons step path ih =>
    have through {child : View} (member : child ∈ root.children)
        (reached : child.get? path = some v) :
        v.ownedCells ⊆ root.ownedCells ∧ v.ownedSubscriptions ⊆ root.ownedSubscriptions :=
      ⟨fun _ owned => (owned_of_mem_children member).1 ((ih reached).1 owned),
        fun _ owned => (owned_of_mem_children member).2 ((ih reached).2 owned)⟩
    cases step with
    | name name =>
      obtain ⟨child, found, reached⟩ := Option.bind_eq_some_iff.mp reached
      exact through (mem_of_find?_eq_some found) reached
    | index index =>
      obtain ⟨child, found, reached⟩ := Option.bind_eq_some_iff.mp reached
      exact through (mem_of_getElem? found) reached

theorem mem_ownedCells {c : CellId} (member : c ∈ v.fields.map (·.2)) : c ∈ v.ownedCells := by
  rw [ownedCells_eq]
  exact mem_append_left _ (mem_append_left _ member)

theorem mem_ownedSubscriptions {n : SubscriptionId} (member : n ∈ v.subscriptions) :
    n ∈ v.ownedSubscriptions := by
  rw [ownedSubscriptions_eq]
  exact mem_append_left _ member

theorem mem_fields_of_cell? {field : String} {c : CellId} (found : v.cell? field = some c) :
    (field, c) ∈ v.fields :=
  mem_of_lookup found

/-! ## Cells belong to one field -/

theorem mem_fieldCells_of_below? (reached : root.below? path = some v) {c : CellId}
    (member : c ∈ v.fields.map (·.2)) : c ∈ root.fieldCells := by
  induction path generalizing root with
  | nil =>
    cases reached
    rw [fieldCells_eq]
    exact mem_append_left _ member
  | cons i path ih =>
    obtain ⟨child, found, reached⟩ := Option.bind_eq_some_iff.mp reached
    obtain ⟨entry, isEntry, rfl⟩ := mem_map.mp (mem_of_getElem? found)
    rw [fieldCells_eq, fieldCellsAll_eq]
    exact mem_append_right _ (mem_flatMap.mpr ⟨entry, isEntry, ih reached⟩)

/-- The cells of a view are apart from those of its children, and those of its children from each
    other. -/
theorem apart_of_nodup (distinct : root.fieldCells.Nodup) {i : Nat} {child : View}
    (found : root.children[i]? = some child) {c : CellId} (member : c ∈ child.fieldCells) :
    child.fieldCells.Nodup ∧ c ∉ root.fields.map (·.2) ∧
      ∀ j child', root.children[j]? = some child' → c ∈ child'.fieldCells → i = j := by
  have split : root.fieldCells = root.fields.map (·.2) ++ root.children.flatMap fieldCells := by
    rw [fieldCells_eq, fieldCellsAll_eq, children, flatMap_map]
  rw [split, nodup_append, nodup_flatMap, pairwise_iff_getElem] at distinct
  obtain ⟨_, ⟨each, apart⟩, outside⟩ := distinct
  obtain ⟨inside, same⟩ := List.getElem?_eq_some_iff.mp found
  have isChild := mem_of_getElem? found
  refine ⟨each child isChild, fun own => ?_, fun j child' found' member' => ?_⟩
  · exact outside c own c (mem_flatMap.mpr ⟨child, isChild, member⟩) rfl
  · obtain ⟨inside', same'⟩ := List.getElem?_eq_some_iff.mp found'
    rcases Nat.lt_trichotomy i j with before | same | after
    · exact absurd (same'.symm ▸ member') (apart i j inside inside' before (same.symm ▸ member))
    · exact same
    · exact absurd (same.symm ▸ member) (apart j i inside' inside after (same'.symm ▸ member'))

theorem path_unique {other : View} {path' : List Nat} (distinct : root.fieldCells.Nodup)
    (reached : root.below? path = some v) (reached' : root.below? path' = some other) {c : CellId}
    (member : c ∈ v.fields.map (·.2)) (member' : c ∈ other.fields.map (·.2)) : path = path' := by
  induction path generalizing root path' with
  | nil =>
    cases reached
    cases path' with
    | nil => rfl
    | cons j path' =>
      obtain ⟨child, found, reached'⟩ := Option.bind_eq_some_iff.mp reached'
      have apart := apart_of_nodup distinct found (mem_fieldCells_of_below? reached' member')
      exact absurd member apart.2.1
  | cons i path ih =>
    obtain ⟨child, found, reached⟩ := Option.bind_eq_some_iff.mp reached
    have mine := mem_fieldCells_of_below? reached member
    have apart := apart_of_nodup distinct found mine
    cases path' with
    | nil =>
      cases reached'
      exact absurd member' apart.2.1
    | cons j path' =>
      obtain ⟨child', found', reached'⟩ := Option.bind_eq_some_iff.mp reached'
      obtain rfl := apart.2.2 j child' found' (mem_fieldCells_of_below? reached' member')
      cases found.symm.trans found'
      rw [ih apart.1 reached reached']

/-! ## Places and calls -/

/-- The views of a tree are at places that calls give them. -/
structure WiredBy (catalog : Catalog) (w : World) (site : List Nat → Site) (call : List Nat → Call)
    (root : View) : Prop where
  views : ∀ path v, root.below? path = some v → ∃ c, catalog.find? v.name = some c ∧
    v.Seated w (site path) c.slots ∧ ∀ i entry, v.keyedChildren[i]? = some entry →
      c.Calls entry (call (path ++ [i])) ∧
      site (path ++ [i]) = v.childSite (site path) (call (path ++ [i]))

/-- The places of a tree, given the place of its root and those below each child. -/
def siteBelow (v : View) (place : Site) (siteOf : String × View → List Nat → Site) :
    List Nat → Site
  | [] => place
  | i :: path => (v.keyedChildren[i]?).elim place fun entry => siteOf entry path

/-- The calls of a tree, given those of the root and those below each child. -/
def callBelow (v : View) (call : String × View → Call)
    (callOf : String × View → List Nat → Call) : List Nat → Call
  | [] => default
  | [i] => (v.keyedChildren[i]?).elim default call
  | i :: path => (v.keyedChildren[i]?).elim default fun entry => callOf entry path

theorem Wired.wiredBy {catalog : Catalog} {w : World} {place : Site}
    (wired : root.Wired catalog w place) :
    ∃ site call, site [] = place ∧ root.WiredBy catalog w site call := by
  have : Nonempty Site := ⟨{}⟩
  induction wired with
  | @intro place v c call found seated called _ ih =>
    choose! siteOf callOf start below using ih
    refine ⟨v.siteBelow place siteOf, v.callBelow call callOf, rfl, ⟨fun path u reached => ?_⟩⟩
    cases path with
    | nil =>
      cases reached
      refine ⟨c, found, seated, fun i entry isEntry => ?_⟩
      have member := mem_of_getElem? isEntry
      have called' : v.callBelow call callOf [i] = call entry := by simp [callBelow, isEntry]
      have placed : v.siteBelow place siteOf [i] = v.childSite place (call entry) := by
        simp [siteBelow, isEntry, start entry member]
      rw [nil_append, called', placed]
      exact ⟨called entry member, rfl⟩
    | cons i path =>
      obtain ⟨child, found', reached⟩ := Option.bind_eq_some_iff.mp reached
      rw [children, List.getElem?_map] at found'
      obtain ⟨entry, isEntry, rfl⟩ := Option.map_eq_some_iff.mp found'
      obtain ⟨c', found', seated', inner⟩ :=
        (below entry (mem_of_getElem? isEntry)).views path u reached
      have placed (path : List Nat) :
          v.siteBelow place siteOf (i :: path) = siteOf entry path := by simp [siteBelow, isEntry]
      have called' (j : Nat) :
          v.callBelow call callOf (i :: path ++ [j]) = callOf entry (path ++ [j]) := by
        cases path <;> simp [callBelow, isEntry]
      refine ⟨c', found', placed path ▸ seated', fun j inside isInside => ?_⟩
      rw [called', placed, cons_append, placed]
      exact inner j inside isInside

/-! ## Writes -/

/-- A world is reached from another by writes to fields of views of a tree. -/
inductive Writes (root : View) : World → World → Prop
  | nothing {w : World} : Writes root w w
  | write {w w' : World} {path : List PathStep} {inner : View} {field : String} {c : CellId}
      (before : Writes root w w') (reached : root.get? path = some inner)
      (found : inner.cell? field = some c) (value : Json) : Writes root w (w'.set c value)

namespace Mounted

variable {catalog : Catalog} {w w' : World}

/-- The cells of fields live. -/
theorem isLive (mounted : root.Mounted catalog w) {path : List PathStep}
    (reached : root.get? path = some v) {c : CellId} (member : c ∈ v.fields.map (·.2)) :
    w.store.isLive c = true :=
  mounted.owns.isLive ((owned_of_get? reached).1 (mem_ownedCells member))

theorem set (mounted : root.Mounted catalog w) {c : CellId} (live : w.store.isLive c = true)
    (value : Json) : root.Mounted catalog (w.set c value) where
  wired := mounted.wired.grows (mounted.quiet.grows_set live value)
  distinct := mounted.distinct
  quiet := mounted.quiet.set live value
  owns := mounted.quiet.owns_set live value mounted.owns

theorem writes (mounted : root.Mounted catalog w) (writes : root.Writes w w') :
    root.Mounted catalog w' ∧ w.Grows w' := by
  induction writes with
  | nothing => exact ⟨mounted, .refl _⟩
  | write _ reached found value ih =>
    have live := ih.1.isLive reached (mem_map_of_mem (mem_fields_of_cell? found))
    exact ⟨ih.1.set live value, ih.2.trans (ih.1.quiet.grows_set live value)⟩

/-- A value is announced to as many subscriptions of a view as the view has fields in the group whose
    cells announce. -/
theorem countP_audience (mounted : root.Mounted catalog w) {path : List PathStep} {site : Site}
    {slots : List (String × Option BindingKind × Option String)} (reached : root.get? path = some v)
    (seated : v.Seated w site slots) (g : Reactive.GroupId) :
    (w.store.audience (w.store.liveMembers g)).countP (w.listeners.asks v.number) =
      (v.fields.map (·.2)).countP fun c => (w.store.kind c).notifies && w.store.groupOf c == g := by
  let counts (c : CellId) : Bool := (w.store.kind c).notifies && w.store.groupOf c == g
  let pairs := (v.fields.map (·.2)).zip v.subscriptions
  have cells : pairs.map (·.1) = v.fields.map (·.2) :=
    List.map_fst_zip (Nat.le_of_eq seated.registered.length_eq)
  have subscriptions : pairs.map (·.2) = v.subscriptions :=
    map_snd_zip (Nat.le_of_eq seated.registered.length_eq.symm)
  have perm : ((w.store.audience (w.store.liveMembers g)).filter (w.listeners.asks v.number)).Perm
      ((pairs.filter (counts ·.1)).map (·.2)) := by
    rw [perm_ext_iff_of_nodup]
    · intro n
      rw [mem_filter, mem_map, seated.asks]
      constructor
      · rintro ⟨heard, own⟩
        obtain ⟨d, member, called⟩ := mem_flatMap.mp heard
        obtain ⟨member, notifies⟩ := mem_filter.mp member
        rw [← subscriptions] at own
        obtain ⟨⟨c, n⟩, paired, rfl⟩ := mem_map.mp own
        -- a subscription is registered at one cell
        obtain rfl := mounted.quiet.enrolled.apart d c n (Store.mem_liveSubscriptions.mp called).1
          (forall₂_zip seated.registered paired)
        have group := (mounted.quiet.consistent.mem_liveMembers.mp member).2
        exact ⟨_, mem_filter.mpr ⟨paired, by simp [counts, notifies, group]⟩, rfl⟩
      · rintro ⟨⟨c, n⟩, member, rfl⟩
        obtain ⟨paired, counted⟩ := mem_filter.mp member
        simp only [counts, Bool.and_eq_true, beq_iff_eq] at counted
        obtain ⟨isField, own⟩ := of_mem_zip paired
        have live := mounted.isLive reached isField
        have owned := mounted.owns.isOwned ((owned_of_get? reached).2 (mem_ownedSubscriptions own))
        refine ⟨mem_flatMap.mpr ⟨c, mem_filter.mpr ⟨?_, counted.1⟩, ?_⟩, own⟩
        · exact mounted.quiet.consistent.mem_liveMembers.mpr ⟨live, counted.2⟩
        · exact Store.mem_liveSubscriptions.mpr
            ⟨forall₂_zip seated.registered paired, owned⟩
    · have ascending := mounted.quiet.consistent.pairwise_liveMembers g
      exact (Store.nodup_liveSubscriptions mounted.quiet.enrolled
        ((ascending.imp Nat.ne_of_lt).filter _)).filter _
    · have sublist := (filter_sublist (l := pairs) (p := (counts ·.1))).map (·.2)
      rw [subscriptions] at sublist
      exact sublist.nodup seated.distinct
  rw [countP_eq_length_filter, perm.length_eq, length_map, ← countP_eq_length_filter,
    ← cells, countP_map]
  rfl

end Mounted

end View

end ReactiveView
