import ReactiveView.Proofs.MountedViews

/-!
# Arguments that are refreshed

A child that is kept gets the values of its one-way arguments again, where they have changed.  If the
fields that take them are not tied, and no field is given two different arguments
(`Component.Accepts`), then every argument has its value afterwards (`View.IsRefreshed`), and to
refresh them once more changes nothing.
-/

namespace ReactiveView

open List
open Reactive (CellId SubscriptionId Store)

/-! ## Equality of values -/

theorem Number.same_refl (n : Number) : n.same n = true := by
  cases n with
  | int i => simp [Number.same]
  | real x => simp [Number.same, Binary64.same, Binary64.cmp]

mutual

theorem Json.same_refl : ∀ j : Json, j.same j = true
  | .null => by rw [same]
  | .bool b => by simp [same]
  | .num n => by rw [same, n.same_refl]
  | .str s => by simp [same]
  | .arr items => by rw [same, sameItems_refl items]
  | .obj members => by rw [same, sameMembers_refl members]

theorem Json.sameItems_refl : ∀ items : List Json, sameItems items items = true
  | [] => by rw [sameItems]
  | item :: items => by rw [sameItems, item.same_refl, sameItems_refl items, Bool.and_self]

theorem Json.sameMembers_refl : ∀ members : List (String × Json), sameMembers members members = true
  | [] => by rw [sameMembers]
  | (key, value) :: members => by
    simp [sameMembers, value.same_refl, sameMembers_refl members]

end

/-! ## Refreshing -/

/-- The code whose value an argument is given again, if it is. -/
def BoundArgument.refreshed? (b : BoundArgument) : Option String :=
  match b.binding, b.value with
  | .oneWay, .expression code => some code
  | _, _ => none

/-- The arguments of a call that are refreshed are for fields of the component that are not tied, and
    no field gets two different ones. -/
def Component.Accepts (c : Component) (bindings : List BoundArgument) : Prop :=
  ∀ b ∈ bindings, ∀ code, b.refreshed? = some code →
    (bindings.find? (·.field = b.field)).map (·.value) = some (.expression code) ∧
      ∀ slot, c.slots.find? (·.1 = b.field) = some slot → isTied slot.2.1 = false

/-- The fields of a child have the values of the arguments that are refreshed. -/
def View.IsRefreshed (child : View) (scope : ViewScope) (bindings : List BoundArgument) (w : World) :
    Prop :=
  ∀ b ∈ bindings, ∀ code c, b.refreshed? = some code → child.cell? b.field = some c →
    (w.store.value c).same (scope.eval w code) = true

/-- The cells of the fields that one-way arguments of a call are written to. -/
def View.boundCells (v : View) (bindings : List BoundArgument) : List CellId :=
  bindings.filterMap fun b => b.refreshed?.bind fun _ => v.cell? b.field

theorem View.mem_boundCells {v : View} {bindings : List BoundArgument} {c : CellId} :
    c ∈ v.boundCells bindings ↔
      ∃ b ∈ bindings, ∃ code, b.refreshed? = some code ∧ v.cell? b.field = some c := by
  simp only [boundCells, mem_filterMap, Option.bind_eq_some_iff]

namespace World

variable {w : World} {scope : ViewScope} {child : View} {b : BoundArgument}
  {bindings : List BoundArgument} {code : String} {c : CellId}

theorem refresh_cons_of_some (refreshed : b.refreshed? = some code)
    (found : child.cell? b.field = some c) :
    w.refresh scope child (b :: bindings) =
      (if (w.store.value c).same (scope.eval w code) then w
        else w.set c (scope.eval w code)).refresh scope child bindings := by
  unfold BoundArgument.refreshed? at refreshed
  split at refreshed
  next oneWay value =>
    cases refreshed
    rw [refresh, oneWay, value, found]
  · cases refreshed

theorem refresh_cons_of_none
    (none : ∀ code c, b.refreshed? = some code → child.cell? b.field ≠ some c) :
    w.refresh scope child (b :: bindings) = w.refresh scope child bindings := by
  rw [refresh]
  split
  next code c oneWay value found =>
    have refreshed : b.refreshed? = some code := by
      simp [BoundArgument.refreshed?, oneWay, value]
    exact absurd found (none code c refreshed)
  · rfl

/-- Where every argument has its value, nothing is written. -/
theorem refresh_of_isRefreshed (refreshed : child.IsRefreshed scope bindings w) :
    w.refresh scope child bindings = w := by
  induction bindings with
  | nil => rfl
  | cons b bindings ih =>
    have rest : child.IsRefreshed scope bindings w :=
      fun b' member => refreshed b' (mem_cons_of_mem _ member)
    by_cases written : ∃ code c, b.refreshed? = some code ∧ child.cell? b.field = some c
    · obtain ⟨code, c, isCode, found⟩ := written
      have same := refreshed b mem_cons_self code c isCode found
      rw [refresh_cons_of_some isCode found, if_pos same, ih rest]
    · rw [refresh_cons_of_none fun code c isCode found => written ⟨code, c, isCode, found⟩, ih rest]

/-- Refreshing goes from one world to the next by writes, each of which gives one argument its value
    and keeps those of the others. -/
theorem refresh_spec {P : World → Prop} (start : P w)
    (write : ∀ w, P w → ∀ b ∈ bindings, ∀ code c, b.refreshed? = some code →
      child.cell? b.field = some c → P (w.set c (scope.eval w code)) ∧
        child.IsRefreshed scope [b] (w.set c (scope.eval w code)) ∧
        ∀ done, (∀ b ∈ done, b ∈ bindings) → child.IsRefreshed scope done w →
          child.IsRefreshed scope done (w.set c (scope.eval w code))) :
    P (w.refresh scope child bindings) ∧
      child.IsRefreshed scope bindings (w.refresh scope child bindings) := by
  -- the arguments that are done have to keep their values while the rest are written
  have go : ∀ (rest done : List BoundArgument) (w : World), (∀ b ∈ done ++ rest, b ∈ bindings) →
      P w → child.IsRefreshed scope done w → P (w.refresh scope child rest) ∧
        child.IsRefreshed scope (done ++ rest) (w.refresh scope child rest) := by
    intro rest
    induction rest with
    | nil =>
      intro done w _ holds refreshed
      rw [append_nil]
      exact ⟨holds, refreshed⟩
    | cons b rest ih =>
      intro done w among holds refreshed
      rw [append_cons] at among ⊢
      have before : ∀ b' ∈ done, b' ∈ bindings := fun b' member =>
        among b' (mem_append_left _ (mem_append_left _ member))
      have both {w : World} (old : child.IsRefreshed scope done w)
          (new : child.IsRefreshed scope [b] w) : child.IsRefreshed scope (done ++ [b]) w :=
        fun b' member => (mem_append.mp member).elim (old b') (new b')
      by_cases written : ∃ code c, b.refreshed? = some code ∧ child.cell? b.field = some c
      · obtain ⟨code, c, isCode, found⟩ := written
        rw [refresh_cons_of_some isCode found]
        split
        next same =>
          refine ih _ _ among holds (both refreshed ?_)
          intro b' member code' c' isCode' found'
          cases mem_singleton.mp member
          cases isCode.symm.trans isCode'
          cases found.symm.trans found'
          exact same
        next =>
          have isBinding : b ∈ bindings := among b (by simp)
          obtain ⟨holds', new, kept⟩ := write w holds b isBinding code c isCode found
          exact ih _ _ among holds' (both (kept done before refreshed) new)
      · rw [refresh_cons_of_none fun code c isCode found => written ⟨code, c, isCode, found⟩]
        refine ih _ _ among holds (both refreshed ?_)
        intro b' member code' c' isCode' found'
        cases mem_singleton.mp member
        exact absurd ⟨code', c', isCode', found'⟩ written
  exact go bindings [] w (fun _ => id) start nofun

end World

/-! ## Fields and their slots -/

theorem exists_of_lookup {α β : Type} {R : String × α → String × β → Prop}
    {slots : List (String × α)} {fields : List (String × β)} (each : List.Forall₂ R slots fields)
    (names : fields.map (·.1) = slots.map (·.1)) {name : String} {c : β}
    (found : fields.lookup name = some c) :
    ∃ slot, slots.find? (·.1 = name) = some slot ∧ R slot (name, c) := by
  induction each with
  | nil => cases found
  | @cons slot field slots fields related _ ih =>
    obtain ⟨name', c'⟩ := field
    rw [map_cons, map_cons, List.cons.injEq] at names
    rw [List.lookup_cons] at found
    by_cases same : name = name'
    · subst same
      rw [beq_self_eq_true] at found
      cases found
      exact ⟨slot, List.find?_cons_of_pos (by simpa using names.1.symm), related⟩
    · rw [beq_false_of_ne same] at found
      obtain ⟨slot', isSlot, related'⟩ := ih names.2 found
      refine ⟨slot', ?_, related'⟩
      rw [List.find?_cons_of_neg (by simpa [← names.1] using Ne.symm same), isSlot]

namespace View

variable {w : World} {site : Site} {v : View}
  {slots : List (String × Option BindingKind × Option String)}

theorem Seated.names (seated : v.Seated w site slots) : v.fields.map (·.1) = slots.map (·.1) := by
  have same : List.Forall₂ (· = ·) (slots.map (·.1)) (v.fields.map (·.1)) :=
    forall₂_map_left_iff.mpr (forall₂_map_right_iff.mpr
      (seated.fills.imp fun _ _ fills => fills.name.symm))
  rw [forall₂_eq_eq_eq] at same
  exact same.symm

/-- Arguments that are refreshed are written to first cells of groups. -/
theorem Seated.isFirst {c : Component} (seated : v.Seated w site c.slots)
    {bindings : List BoundArgument} (accepts : c.Accepts bindings) {b : BoundArgument}
    (member : b ∈ bindings) {code : String} (refreshed : b.refreshed? = some code) {cell : CellId}
    (found : v.cell? b.field = some cell) : w.store.IsFirst cell := by
  obtain ⟨slot, isSlot, fills⟩ := exists_of_lookup seated.fills seated.names found
  exact fills.first ((accepts b member code refreshed).2 slot isSlot)

/-- The arguments of a new view have their values. -/
theorem isRefreshed_of_feeds {c : Component} (seated : v.Seated w site c.slots)
    (accepts : c.Accepts site.args) {start : World}
    (feeds : List.Forall₂ (site.Feeds start w) c.slots v.fields)
    (same : ∀ code, site.parent.eval w code = site.parent.eval start code) :
    v.IsRefreshed site.parent site.args w := by
  intro b member code cell refreshed found
  obtain ⟨bound, free⟩ := accepts b member code refreshed
  obtain ⟨slot, isSlot, fed⟩ := exists_of_lookup feeds seated.names found
  have named : slot.1 = b.field := by simpa using List.find?_some isSlot
  obtain ⟨_, value⟩ := fed (free slot isSlot) code (by rw [Site.bound?, named, bound])
  rw [value, same]
  exact Json.same_refl _

end View

end ReactiveView
