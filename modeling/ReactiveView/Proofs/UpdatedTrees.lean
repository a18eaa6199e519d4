import Mathlib.Data.List.Flatten
import ReactiveView.Proofs.FieldPlaces
import ReactiveView.Proofs.KeptChildren
import ReactiveView.Proofs.RefreshedArguments

/-!
# Trees that are rendered again

A tree that is rendered again keeps its shape, whether that succeeds or fails: every view has its cells
from cells in sight of it (`View.Rooted`), no two fields share a cell, and the tree owns what it has
(`View.Houses`).  Of the cells that were there, only those in groups that cells of children begin can
get another value, because nothing but arguments of children is written.
-/

namespace ReactiveView

open List
open Reactive (CellId SubscriptionId Store)

/-! ## Views at their places -/

namespace View

variable {catalog : Catalog} {w w' : World} {sight : List CellId} {v v' : View}

theorem Seated.sameInstance {site : Site} {slots : List (String × Option BindingKind × Option String)}
    (seated : v.Seated w site slots) (same : v.SameInstance v') : v'.Seated w site slots where
  fills := same.fields ▸ seated.fills
  provisions := by rw [same.provided, same.fields, seated.provisions]
  ascending := same.fields ▸ seated.ascending
  number := same.number ▸ seated.number
  registered := by
    rw [same.fields, same.subscriptions]
    exact seated.registered
  asks n := by
    rw [same.number, same.subscriptions]
    exact seated.asks n
  distinct := same.subscriptions ▸ seated.distinct

/-- The cells of the fields of a view and of the keys that it provides. -/
def ownCells (v : View) : List CellId := (v.fields ++ v.provided).map (·.2)

theorem SameInstance.ownCells (same : v.SameInstance v') : v'.ownCells = v.ownCells := by
  rw [View.ownCells, View.ownCells, same.fields, same.provided]

theorem ownedCells_eq_ownCells (v : View) :
    v.ownedCells = v.ownCells ++ ownedCellsAll v.keyedChildren := by
  rw [ownedCells_eq, ownCells, map_append]

/-- The keys that children see are in sight of them. -/
theorem inSight_child (v : View) {provided : Provided}
    (inSight : ∀ entry ∈ provided, entry.2 ∈ sight) :
    ∀ entry ∈ v.provided ++ provided, entry.2 ∈ v.ownCells ++ sight := by
  rw [forall_mem_append]
  refine ⟨fun entry own => ?_, fun entry outer => mem_append_right _ (inSight entry outer)⟩
  exact mem_append_left _ (mem_map_of_mem (mem_append_right _ own))

/-- A view has its cells from a place that gives cells in sight. -/
def Sits (catalog : Catalog) (w : World) (sight : List CellId) (v : View) : Prop :=
  ∃ c site, catalog.find? v.name = some c ∧ v.Seated w site c.slots ∧ ∀ d ∈ site.sources, d ∈ sight

/-- A view and the views below it have their cells from cells in sight of them. -/
inductive Rooted (catalog : Catalog) (w : World) : List CellId → View → Prop
  | intro {sight : List CellId} {v : View} (sits : v.Sits catalog w sight)
      (children : ∀ entry ∈ v.keyedChildren, Rooted catalog w (v.ownCells ++ sight) entry.2) :
      Rooted catalog w sight v

namespace Sits

variable (sits : v.Sits catalog w sight)
include sits

theorem grows (grows : w.Grows w') : v.Sits catalog w' sight := by
  obtain ⟨c, site, found, seated, sources⟩ := sits
  exact ⟨c, site, found, seated.grows grows, sources⟩

theorem sameInstance (same : v.SameInstance v') : v'.Sits catalog w sight := by
  obtain ⟨c, site, found, seated, sources⟩ := sits
  exact ⟨c, site, same.name ▸ found, seated.sameInstance same, sources⟩

theorem known {d : CellId} (member : d ∈ v.fields.map (·.2)) : d < w.store.cells.length := by
  obtain ⟨_, _, _, seated, _⟩ := sits
  exact seated.known member

/-- The keys are provided by fields. -/
theorem mem_fields {d : CellId} (member : d ∈ v.ownCells) : d ∈ v.fields.map (·.2) := by
  obtain ⟨_, _, _, seated, _⟩ := sits
  rw [ownCells, map_append, mem_append] at member
  refine member.elim id fun isKey => ?_
  rw [seated.provisions, Site.provisions] at isKey
  obtain ⟨entry, isEntry, rfl⟩ := mem_map.mp isKey
  obtain ⟨⟨slot, field⟩, paired, provides⟩ := mem_filterMap.mp isEntry
  obtain ⟨key, _, rfl⟩ := Option.map_eq_some_iff.mp provides
  exact mem_map.mpr ⟨field, (of_mem_zip paired).2, rfl⟩

theorem based (based : w.IsBased sight) : w.IsBased (v.ownCells ++ sight) := by
  intro d member
  rcases mem_append.mp member with own | inSight
  · have isField := sits.mem_fields own
    refine ⟨sits.known isField, ?_⟩
    obtain ⟨c, site, _, seated, sources⟩ := sits
    obtain ⟨field, isField', rfl⟩ := mem_map.mp isField
    obtain ⟨slot, _, fills⟩ := exists_of_mem_forall₂ seated.fills isField'
    -- a field that is tied has the group of its source, and the source is in sight
    cases tied : isTied slot.2.1 with
    | false => exact ⟨field.2, member, fills.first tied, rfl⟩
    | true =>
      obtain ⟨source, tie, _, same⟩ := fills.tied tied
      obtain ⟨_, r, isBase, first, same'⟩ := based source (sources _ (Site.mem_sources_of_tie? tie))
      exact ⟨r, mem_append_right _ isBase, first, same.trans same'⟩
  · obtain ⟨known, r, isBase, first, same⟩ := based d inSight
    exact ⟨known, r, mem_append_right _ isBase, first, same⟩

end Sits

namespace Rooted

variable (rooted : v.Rooted catalog w sight)
include rooted

theorem sits : v.Sits catalog w sight := by
  cases rooted with
  | intro sits _ => exact sits

theorem child {entry : String × View} (member : entry ∈ v.keyedChildren) :
    entry.2.Rooted catalog w (v.ownCells ++ sight) := by
  cases rooted with
  | intro _ children => exact children entry member

theorem grows (grows : w.Grows w') : v.Rooted catalog w' sight := by
  induction rooted with
  | intro sits _ ih => exact .intro (sits.grows grows) ih

theorem based (based : w.IsBased sight) : w.IsBased (v.fieldCells ++ sight) := by
  -- what is in sight of a child but not of the view is a cell of the view itself
  induction rooted with
  | @intro sight v sits children ih =>
    have own := sits.based based
    have among : ∀ d ∈ v.ownCells ++ sight, d ∈ v.fieldCells ++ sight := by
      rw [fieldCells_eq, forall_mem_append]
      refine ⟨fun d member => ?_, fun d => mem_append_right _⟩
      exact mem_append_left _ (mem_append_left _ (sits.mem_fields member))
    intro d member
    rw [fieldCells_eq, append_assoc, mem_append, mem_append, fieldCellsAll_eq]
      at member
    have inSight (inside : d ∈ v.ownCells ++ sight) : d < w.store.cells.length ∧
        ∃ r ∈ v.fieldCells ++ sight, w.store.IsFirst r ∧
          w.store.groupOf d = w.store.groupOf r := by
      obtain ⟨known, r, isBase, base⟩ := own d inside
      exact ⟨known, r, among r isBase, base⟩
    rcases member with field | below | outer
    · rw [ownCells, map_append] at inSight
      exact inSight (mem_append_left _ (mem_append_left _ field))
    · obtain ⟨entry, isChild, below⟩ := mem_flatMap.mp below
      obtain ⟨known, r, isBase, base⟩ := ih entry isChild own d (mem_append_left _ below)
      refine ⟨known, r, ?_, base⟩
      rcases mem_append.mp isBase with inside | outside
      · rw [fieldCells_eq, fieldCellsAll_eq]
        exact mem_append_left _ (mem_append_right _
          (mem_flatMap.mpr ⟨entry, isChild, inside⟩))
      · exact among r outside
    · exact inSight (mem_append_right _ outer)

theorem known {d : CellId} (member : d ∈ v.fieldCells) : d < w.store.cells.length := by
  induction rooted with
  | @intro sight v sits children ih =>
    rw [fieldCells_eq, mem_append, fieldCellsAll_eq] at member
    rcases member with own | below
    · exact sits.known own
    · obtain ⟨entry, isChild, below⟩ := mem_flatMap.mp below
      exact ih entry isChild below

end Rooted

/-! ## Children and their cells -/

/-- Some views are at their places below a view: no two of their fields share a cell, none has a cell
    that is in sight of the view, and what they and the view own is counted, with what others hold. -/
structure Houses (catalog : Catalog) (v : View) (sight held : List CellId)
    (subscriptions : List SubscriptionId) (views : List (String × View)) (w : World) : Prop where
  sits : v.Sits catalog w sight
  rooted : ∀ entry ∈ views, entry.2.Rooted catalog w (v.ownCells ++ sight)
  distinct : (v.fields.map (·.2) ++ fieldCellsAll views).Nodup
  based : w.IsBased sight
  apart : ∀ d ∈ sight, d ∉ v.fields.map (·.2) ++ fieldCellsAll views
  quiet : w.Quiet
  inSight : ∀ d ∈ sight, d ∈ held
  owns : w.Owns (ownedCellsAll views ++ (v.ownCells ++ held))
    (ownedSubscriptionsAll views ++ (v.subscriptions ++ subscriptions))

theorem count_flatMap_le {α : Type} {views views' : List (String × View)}
    (fewer : views'.Subperm views) [DecidableEq α] (cells : String × View → List α) (a : α) :
    (views'.flatMap cells).count a ≤ (views.flatMap cells).count a := by
  obtain ⟨middle, perm, sublist⟩ := fewer
  rw [← (perm.flatMap_right cells).count_eq]
  exact (sublist.flatMap cells).count_le a

theorem mem_fieldCells_of_mem_boundCells {bindings : List BoundArgument} {d : CellId}
    (bound : d ∈ v.boundCells bindings) : d ∈ v.fieldCells := by
  obtain ⟨b, _, code, _, found⟩ := mem_boundCells.mp bound
  rw [fieldCells_eq]
  exact mem_append_left _ (mem_map_of_mem (mem_fields_of_cell? found))

namespace Houses

variable {held : List CellId} {subscriptions : List SubscriptionId} {views rest : List (String × View)}
  {key : String} {inner inner' : View}

/-- A new view is at its place. -/
theorem of_makes {component : String} {site : Site} (makes : catalog.Makes component site w v w')
    (sources : ∀ d ∈ site.sources, d ∈ sight) (based : w.IsBased sight)
    (inSight : ∀ d ∈ sight, d ∈ held) (owns : w.Owns held subscriptions) :
    v.Houses catalog sight held subscriptions v.keyedChildren w' := by
  obtain ⟨c, found, seated⟩ := makes.seated
  have owns := makes.owns held subscriptions owns
  rw [ownedCells_eq_ownCells, ownedSubscriptions_eq, makes.children] at owns
  rw [makes.children]
  constructor
  case sits => exact ⟨c, site, makes.named ▸ found, seated, sources⟩
  case rooted => exact nofun
  case distinct =>
    rw [fieldCellsAll, append_nil]
    exact seated.ascending.imp Nat.ne_of_lt
  case based => exact based.grows makes.grows
  case apart =>
    intro d isSeen member
    rw [fieldCellsAll, append_nil] at member
    exact Nat.not_le_of_lt (based d isSeen).1 (makes.new d member)
  case quiet => exact makes.quiet
  case inSight => exact inSight
  case owns => simpa [ownedCellsAll, ownedSubscriptionsAll] using owns

/-- What a view gives to its children is in sight of them. -/
theorem sources_child {provided : Provided} (inSight : ∀ entry ∈ provided, entry.2 ∈ sight)
    (bindings : List BoundArgument) (locals : List (String × Json)) :
    ∀ d ∈ Site.sources ⟨bindings, ⟨v.fields, locals⟩, v.provided ++ provided⟩,
      d ∈ v.ownCells ++ sight := by
  intro d isSource
  obtain ⟨entry, member, rfl⟩ := mem_map.mp isSource
  rw [← append_assoc, mem_append] at member
  rcases member with own | outer
  · exact mem_append_left _ (mem_map_of_mem own)
  · exact mem_append_right _ (inSight entry outer)

section

variable (houses : v.Houses catalog sight held subscriptions views w)
include houses

theorem sameInstance (same : v.SameInstance v') :
    v'.Houses catalog sight held subscriptions views w := by
  obtain ⟨sits, rooted, distinct, based, apart, quiet, inSight, owns⟩ := houses
  refine ⟨sits.sameInstance same, ?_, ?_, based, ?_, quiet, inSight, ?_⟩
  · rw [same.ownCells]
    exact rooted
  · rw [same.fields]
    exact distinct
  · rw [same.fields]
    exact apart
  · rw [same.ownCells, same.subscriptions]
    exact owns

/-- The world goes on. -/
theorem grows (grows : w.Grows w') (quiet : w'.Quiet)
    (owns : w'.Owns (ownedCellsAll views ++ (v.ownCells ++ held))
      (ownedSubscriptionsAll views ++ (v.subscriptions ++ subscriptions))) :
    v.Houses catalog sight held subscriptions views w' where
  sits := houses.sits.grows grows
  rooted entry member := (houses.rooted entry member).grows grows
  distinct := houses.distinct
  based := houses.based.grows grows
  apart := houses.apart
  quiet := quiet
  inSight := houses.inSight
  owns := owns

/-- Some of the views are let go without being dropped. -/
theorem fewer (fewer : rest.Subperm views) : v.Houses catalog sight held subscriptions rest w where
  sits := houses.sits
  rooted entry member := houses.rooted entry (fewer.subset member)
  distinct := by
    have distinct := houses.distinct
    rw [nodup_iff_count_le_one] at distinct ⊢
    intro d
    -- a cell occurs below the views that are left no more often than before
    have bound := count_flatMap_le fewer (·.2.fieldCells) d
    have once := distinct d
    rw [count_append, fieldCellsAll_eq] at once ⊢
    omega
  based := houses.based
  apart d inSight member := by
    refine houses.apart d inSight ?_
    rw [fieldCellsAll_eq, mem_append] at member ⊢
    refine member.imp_right fun below => ?_
    obtain ⟨entry, isEntry, inside⟩ := mem_flatMap.mp below
    exact mem_flatMap.mpr ⟨entry, fewer.subset isEntry, inside⟩
  quiet := houses.quiet
  inSight := houses.inSight
  owns := by
    refine houses.owns.mono (fun d => ?_) fun n => ?_
    · have bound := count_flatMap_le fewer (·.2.ownedCells) d
      simp only [ownedCellsAll_eq, count_append]
      omega
    · have bound := count_flatMap_le fewer (·.2.ownedSubscriptions) n
      simp only [ownedSubscriptionsAll_eq, count_append]
      omega

theorem known {d : CellId} (member : d ∈ fieldCellsAll views) : d < w.store.cells.length := by
  rw [fieldCellsAll_eq] at member
  obtain ⟨entry, isEntry, inside⟩ := mem_flatMap.mp member
  exact (houses.rooted entry isEntry).known inside

/-- A view that has its place below the view joins the others, if it shares no cell with them. -/
theorem join (grows : w.Grows w')
    (below : inner.Houses catalog (v.ownCells ++ sight) (ownedCellsAll views ++ (v.ownCells ++ held))
      (ownedSubscriptionsAll views ++ (v.subscriptions ++ subscriptions)) inner.keyedChildren w')
    (between : inner.fieldCells.Disjoint (fieldCellsAll views)) (key : String) :
    v.Houses catalog sight held subscriptions ((key, inner) :: views) w' := by
  obtain ⟨own, others, outside⟩ := nodup_append'.mp houses.distinct
  -- what is in sight of the new child is not among its own fields
  have apart {d : CellId} (inSight : d ∈ v.ownCells ++ sight) : d ∉ inner.fieldCells :=
    inner.fieldCells_eq ▸ below.apart d inSight
  constructor
  case sits => exact houses.sits.grows grows
  case rooted =>
    rw [forall_mem_cons]
    refine ⟨.intro below.sits below.rooted, fun entry member => ?_⟩
    exact (houses.rooted entry member).grows grows
  case distinct =>
    rw [fieldCellsAll, nodup_append', nodup_append']
    refine ⟨own, ⟨inner.fieldCells_eq ▸ below.distinct, others, between⟩, ?_⟩
    intro d field member
    rcases mem_append.mp member with here | later
    · have isOwn : d ∈ v.ownCells := by
        rw [ownCells, map_append]
        exact mem_append_left _ field
      exact apart (mem_append_left _ isOwn) here
    · exact outside field later
  case based => exact houses.based.grows grows
  case apart =>
    intro d inSight member
    rw [fieldCellsAll, mem_append, mem_append] at member
    have other := houses.apart d inSight
    rw [mem_append, not_or] at other
    rcases member with field | here | later
    · exact other.1 field
    · exact apart (mem_append_right _ inSight) here
    · exact other.2 later
  case quiet => exact below.quiet
  case inSight => exact houses.inSight
  case owns =>
    refine below.owns.mono (fun d => ?_) fun n => ?_
    · simp only [ownedCellsAll, ownedCells_eq_ownCells, count_append]
      omega
    · simp only [ownedSubscriptionsAll, ownedSubscriptions_eq, count_append]
      omega

theorem mem_held {d : CellId} (member : d ∈ v.ownCells ++ sight) :
    d ∈ ownedCellsAll views ++ (v.ownCells ++ held) := by
  rcases mem_append.mp member with own | outer
  · exact mem_append_right _ (mem_append_left _ own)
  · exact mem_append_right _ (mem_append_right _ (houses.inSight d outer))

/-- A new view is at its place below the view. -/
theorem made {component : String} {site : Site}
    (sources : ∀ d ∈ site.sources, d ∈ v.ownCells ++ sight)
    (makes : catalog.Makes component site w inner w') (key : String) :
    v.Houses catalog sight held subscriptions ((key, inner) :: views) w' := by
  have below := of_makes makes sources (houses.sits.based houses.based) (fun _ => houses.mem_held)
    houses.owns
  refine houses.join makes.grows below (fun d here later => ?_) key
  rw [fieldCells_eq, makes.children, fieldCellsAll, append_nil] at here
  exact Nat.not_le_of_lt (houses.known later) (makes.new d here)

/-- A new child gets its cells from what is in sight of it. -/
theorem makes_child {provided : Provided} {component : String} {bindings : List BoundArgument}
    {locals : List (String × Json)} {child : View}
    (inSight : ∀ entry ∈ provided, entry.2 ∈ sight)
    (made : catalog.instantiate component ⟨bindings, ⟨v.fields, locals⟩, v.provided ++ provided⟩ w =
      (.ok child, w')) :
    catalog.Makes component ⟨bindings, ⟨v.fields, locals⟩, v.provided ++ provided⟩ w child w' :=
  Catalog.instantiate_spec houses.quiet houses.owns
    (fun d isSource => houses.mem_held (sources_child inSight bindings locals d isSource)) made

/-- The fields of the view keep their values while cells of views below it are written. -/
theorem value_eq (spares : w.Spares (fieldCellsAll views) w') {d : CellId}
    (member : d ∈ v.ownCells ++ sight) :
    w'.store.value d = w.store.value d := by
  refine (houses.sits.based houses.based).value_eq spares (fun c isWritten inSight => ?_) member
  rcases mem_append.mp inSight with own | outer
  · exact (nodup_append'.mp houses.distinct).2.2 (houses.sits.mem_fields own) isWritten
  · exact houses.apart c outer (mem_append_right _ isWritten)

theorem eval_eq (spares : w.Spares (fieldCellsAll views) w') (locals : List (String × Json))
    (code : String) :
    ViewScope.eval ⟨v.fields, locals⟩ w' code = ViewScope.eval ⟨v.fields, locals⟩ w code := by
  refine ViewScope.eval_congr (fun entry isField => houses.value_eq spares ?_) code
  exact mem_append_left _ (mem_map_of_mem (mem_append_left _ isField))

end

/-- Some of the views are dropped. -/
theorem dropAll (houses : v.Houses catalog sight held subscriptions (rest ++ views) w) :
    v.Houses catalog sight held subscriptions views (w.dropAll rest) := by
  have others := houses.fewer (sublist_append_right rest views).subperm
  refine others.grows (w.grows_dropAll rest) (houses.quiet.dropAll rest) ?_
  have owns := houses.owns
  rw [ownedCellsAll_eq, ownedSubscriptionsAll_eq, flatMap_append, flatMap_append,
    append_assoc, append_assoc] at owns
  refine World.Owns.dropAll ?_
  simpa only [ownedCellsAll_eq, ownedSubscriptionsAll_eq] using owns

section

variable (houses : v.Houses catalog sight held subscriptions ((key, inner) :: rest) w)
include houses

/-- A child is in sight of the cells of the view, and everything else is held by others. -/
theorem child :
    inner.Houses catalog (v.ownCells ++ sight) (ownedCellsAll rest ++ (v.ownCells ++ held))
      (ownedSubscriptionsAll rest ++ (v.subscriptions ++ subscriptions)) inner.keyedChildren w := by
  have rooted := houses.rooted _ mem_cons_self
  have distinct := houses.distinct
  have apart := houses.apart
  rw [fieldCellsAll] at distinct apart
  obtain ⟨_, below, outside⟩ := nodup_append'.mp distinct
  constructor
  case sits => exact rooted.sits
  case rooted => exact fun entry member => rooted.child member
  case distinct =>
    rw [← fieldCells_eq]
    exact below.of_append_left
  case based => exact houses.sits.based houses.based
  case apart =>
    intro d inSight member
    rw [← fieldCells_eq] at member
    rcases mem_append.mp inSight with own | outer
    -- a cell of the view itself is a field of it, which no child has
    · exact outside (houses.sits.mem_fields own) (mem_append_left _ member)
    · exact apart d outer (mem_append_right _ (mem_append_left _ member))
  case quiet => exact houses.quiet
  case inSight =>
    intro d inSight
    rcases mem_append.mp inSight with own | outer
    · exact mem_append_right _ (mem_append_left _ own)
    · exact mem_append_right _ (mem_append_right _ (houses.inSight d outer))
  case owns =>
    refine houses.owns.mono (fun d => ?_) fun n => ?_
    · simp only [ownedCellsAll, ownedCells_eq_ownCells, count_append]
      omega
    · simp only [ownedSubscriptionsAll, ownedSubscriptions_eq, count_append]
      omega

/-- A child in another state takes the place of a child. -/
theorem replace (grows : w.Grows w')
    (below : inner'.Houses catalog (v.ownCells ++ sight) (ownedCellsAll rest ++ (v.ownCells ++ held))
      (ownedSubscriptionsAll rest ++ (v.subscriptions ++ subscriptions)) inner'.keyedChildren w')
    (old : ∀ d ∈ inner'.fieldCells, d ∈ inner.fieldCells ∨ w.store.cells.length ≤ d) :
    v.Houses catalog sight held subscriptions ((key, inner') :: rest) w' := by
  have others := houses.fewer (sublist_cons_self (key, inner) rest).subperm
  refine others.join grows below (fun d here later => ?_) key
  -- a cell of the child is one that it had, or it is newer than the cells of the others
  rcases old d here with before | new
  · have distinct := (nodup_append'.mp houses.distinct).2.1
    exact (nodup_append'.mp distinct).2.2 before later
  · exact Nat.not_le_of_lt (others.known later) new

/-- A write to a field of a child that begins a group. -/
theorem set {c : CellId} (isField : c ∈ inner.fields.map (·.2)) (first : w.store.IsFirst c)
    (value : Json) :
    v.Houses catalog sight held subscriptions ((key, inner) :: rest) (w.set c value) ∧
      w.Grows (w.set c value) ∧ w.Spares [c] (w.set c value) ∧
      (w.set c value).store.value c = value := by
  have isOwned : c ∈ ownedCellsAll ((key, inner) :: rest) ++ (v.ownCells ++ held) := by
    rw [ownedCellsAll, ownedCells_eq]
    simp only [mem_append]
    exact .inl (.inl (.inl (.inl isField)))
  have live := houses.owns.isLive isOwned
  have grows := houses.quiet.grows_set live value
  refine ⟨houses.grows grows (houses.quiet.set live value)
    (houses.quiet.owns_set live value houses.owns), grows,
    houses.quiet.spares_set live first value, ?_⟩
  rw [houses.quiet.value_set live live value, if_pos rfl]

/-- A child that is kept has its arguments refreshed, and nothing else is written. -/
theorem refresh {c : Component} (found : catalog.find? inner.name = some c)
    {bindings : List BoundArgument} (accepts : c.Accepts bindings) (locals : List (String × Json)) :
    (v.Houses catalog sight held subscriptions ((key, inner) :: rest)
        (w.refresh ⟨v.fields, locals⟩ inner bindings) ∧
      w.Grows (w.refresh ⟨v.fields, locals⟩ inner bindings) ∧
      w.Spares (inner.boundCells bindings) (w.refresh ⟨v.fields, locals⟩ inner bindings)) ∧
    inner.IsRefreshed ⟨v.fields, locals⟩ bindings
      (w.refresh ⟨v.fields, locals⟩ inner bindings) := by
  refine World.refresh_spec (P := fun now => v.Houses catalog sight held subscriptions
    ((key, inner) :: rest) now ∧ w.Grows now ∧ w.Spares (inner.boundCells bindings) now)
    ⟨houses, .refl w, .refl w _⟩ ?_
  rintro now ⟨houses, grows, spares⟩ b member code cell isCode isCell
  obtain ⟨_, _, found', seated, _⟩ := (houses.rooted _ mem_cons_self).sits
  cases found.symm.trans found'
  have isField := mem_fields_of_cell? isCell
  have first := seated.isFirst accepts member isCode isCell
  obtain ⟨houses', grows', one, value⟩ := houses.set (mem_map_of_mem isField) first
    (ViewScope.eval ⟨v.fields, locals⟩ now code)
  generalize now.set cell (ViewScope.eval ⟨v.fields, locals⟩ now code) = next at *
  have below : now.Spares (inner.boundCells bindings) next := by
    refine one.mono fun d isWritten => ?_
    rw [mem_singleton.mp isWritten]
    exact mem_boundCells.mpr ⟨b, member, code, isCode, isCell⟩
  have all : now.Spares (fieldCellsAll ((key, inner) :: rest)) next :=
    below.mono fun d bound => mem_append_left _ (mem_fieldCells_of_mem_boundCells bound)
  -- the parent's fields are none of the cells below it, so the code means what it meant
  have eval := houses.eval_eq all locals
  have written {code' : String} (same : code' = code) :
      (next.store.value cell).same (ViewScope.eval ⟨v.fields, locals⟩ next code') = true := by
    rw [value, eval, same]
    exact Json.same_refl _
  refine ⟨⟨houses', grows.trans grows', spares.trans grows below fun _ => .inl⟩, ?_, ?_⟩
  · intro b' isB code' cell' isCode' isCell'
    cases mem_singleton.mp isB
    cases isCode.symm.trans isCode'
    cases isCell.symm.trans isCell'
    exact written rfl
  · intro done among refreshed b' isDone code' cell' isCode' isCell'
    by_cases same : cell' = cell
    · -- the field is the same, and its arguments have one code
      subst same
      have fields : b'.field = b.field := congrArg (·.1) (inj_on_of_nodup_map
        (seated.ascending.imp Nat.ne_of_lt) (mem_fields_of_cell? isCell') isField rfl)
      have bound := (accepts b member code isCode).1
      have bound' := (accepts b' (among b' isDone) code' isCode').1
      rw [fields, bound] at bound'
      cases bound'
      exact written rfl
    · -- another field of the child begins another group
      have first' := seated.isFirst accepts (among b' isDone) isCode' isCell'
      have known := seated.known (mem_map_of_mem (mem_fields_of_cell? isCell'))
      have based : now.IsBased [cell'] :=
        forall_mem_singleton.mpr ⟨known, cell', mem_cons_self, first', rfl⟩
      have kept := based.value_eq one (by simpa using Ne.symm same) mem_cons_self
      rw [kept, eval]
      exact refreshed b' isDone code' cell' isCode' isCell'

end

/-- When a rendering begins, all children are still to be met. -/
theorem start (houses : v.Houses catalog sight held subscriptions v.keyedChildren w) :
    v.Houses catalog sight held subscriptions ((v.start w).former ++ (v.start w).children)
      (v.start w).world := by
  change v.Houses catalog sight held subscriptions (v.keyedChildren ++ []) w
  rwa [append_nil]

end Houses

end View

/-! ## Rendering children -/

/-- What a step of an execution leaves: cells of children that are still to be met again are all that
    was written, and children have their cells from before or new ones. -/
structure Execution.Advances (e e' : Execution) : Prop where
  grows : e.world.Grows e'.world
  spares : e.world.Spares (View.fieldCellsAll e.former) e'.world
  former : ∀ d ∈ View.fieldCellsAll e'.former, d ∈ View.fieldCellsAll e.former
  children : ∀ d ∈ View.fieldCellsAll e'.children, d ∈ View.fieldCellsAll e.children ∨
    d ∈ View.fieldCellsAll e.former ∨ e.world.store.cells.length ≤ d

namespace Execution.Advances

variable {e e' e'' : Execution}

theorem refl (e : Execution) : e.Advances e :=
  ⟨.refl _, .refl _ _, fun _ => id, fun _ => .inl⟩

theorem trans (first : e.Advances e') (second : e'.Advances e'') : e.Advances e'' where
  grows := first.grows.trans second.grows
  spares := first.spares.trans first.grows second.spares fun d member => .inl (first.former d member)
  former d member := first.former d (second.former d member)
  children d member := by
    rcases second.children d member with old | former | new
    · exact first.children d old
    · exact .inr (.inl (first.former d former))
    · exact .inr (.inr (Nat.le_trans first.grows.store.size new))

theorem of_sameViews (same : e.SameViews e') : e.Advances e' := by
  obtain ⟨world, former, children⟩ := same
  refine ⟨?_, ?_, ?_, ?_⟩
  · rw [world]
    exact .refl _
  · rw [world]
    exact .refl _ _
  · rw [former]
    exact fun _ => id
  · rw [children]
    exact fun _ => .inl

end Execution.Advances

namespace Catalog

variable {catalog : Catalog} {render : Renderer} {sight held : List CellId}
  {subscriptions : List SubscriptionId} {v : View} {w : World} {e e' : Execution}

/-- What a rendering leaves, whatever its outcome. -/
structure Leaves (catalog : Catalog) (sight held : List CellId) (subscriptions : List SubscriptionId)
    (view : View) (w : World) (view' : View) (w' : World) : Prop where
  same : view.SameInstance view'
  houses : view'.Houses catalog sight held subscriptions view'.keyedChildren w'
  grows : w.Grows w'
  spares : w.Spares (View.fieldCellsAll view.keyedChildren) w'
  old : ∀ d ∈ View.fieldCellsAll view'.keyedChildren,
    d ∈ View.fieldCellsAll view.keyedChildren ∨ w.store.cells.length ≤ d

/-- A renderer leaves trees at their places. -/
def LeavesTrees (catalog : Catalog) (render : Renderer) : Prop :=
  ∀ (view : View) (provided : Provided) (w : World) (outcome : Except RenderFault Unit)
    (view' : View) (w' : World) (sight held : List CellId) (subscriptions : List SubscriptionId),
    render view provided w = (outcome, view', w') → (∀ entry ∈ provided, entry.2 ∈ sight) →
    view.Houses catalog sight held subscriptions view.keyedChildren w →
    catalog.Leaves sight held subscriptions view w view' w'

theorem Leaves.fieldCells {view view' : View} {w' : World}
    (leaves : catalog.Leaves sight held subscriptions view w view' w') :
    ∀ d ∈ view'.fieldCells, d ∈ view.fieldCells ∨ w.store.cells.length ≤ d := by
  rw [View.fieldCells_eq, View.fieldCells_eq, leaves.same.fields, forall_mem_append]
  constructor
  · exact fun d own => .inl (mem_append_left _ own)
  · exact fun d below => (leaves.old d below).imp_left (mem_append_right _)

/-- What is known when the rendering of the child for a marker begins. -/
structure HasBegun (catalog : Catalog) (v : View) (sight held : List CellId)
    (subscriptions : List SubscriptionId) (e : Execution) (key component : String)
    (bindings : List BoundArgument) (locals : List (String × Json)) (child : View) (w : World)
    (former : List (String × View)) : Prop where
  houses : v.Houses catalog sight held subscriptions ((key, child) :: (former ++ e.children)) w
  grows : e.world.Grows w
  /-- Nothing but arguments of the child was written. -/
  bound : e.world.Spares (child.boundCells bindings) w
  named : child.name = component
  refreshed : child.IsRefreshed ⟨v.fields, locals⟩ bindings w
  old : ∀ d ∈ child.fieldCells,
    d ∈ View.fieldCellsAll e.former ∨ e.world.store.cells.length ≤ d
  fewer : former ⊆ e.former

theorem Begins.hasBegun {provided : Provided} {key component : String}
    {bindings : List BoundArgument} {locals : List (String × Json)} {child : View}
    {former : List (String × View)}
    (begins : catalog.Begins (v.provided ++ provided) key component bindings ⟨v.fields, locals⟩ e
      child w former)
    (inSight : ∀ entry ∈ provided, entry.2 ∈ sight)
    (accepts : ∀ c, catalog.find? component = some c → c.Accepts bindings)
    (houses : v.Houses catalog sight held subscriptions (e.former ++ e.children) e.world) :
    catalog.HasBegun v sight held subscriptions e key component bindings locals child w former := by
  cases begins with
  | kept found named =>
    -- the child leaves the former ones, with the others that have its key
    have fewer := subperm_of_lookup found
    have own : ∀ d ∈ child.fieldCells, d ∈ View.fieldCellsAll e.former := by
      intro d member
      refine View.fieldCellsAll_subset fewer.subset ?_
      rw [View.fieldCellsAll]
      exact mem_append_left _ member
    have houses := houses.fewer ((subperm_append_right e.children).mpr fewer)
    obtain ⟨c, _, known, _, _⟩ := (houses.rooted _ mem_cons_self).sits
    obtain ⟨⟨houses, grows, spares⟩, refreshed⟩ :=
      houses.refresh known (accepts c (named ▸ known)) locals
    exact ⟨houses, grows, spares, named, refreshed, fun d member => .inl (own d member),
      filter_sublist.subset⟩
  | made missing made =>
    have makes := houses.makes_child inSight made
    have spares (cells : List CellId) : e.world.Spares cells w :=
      makes.spares.mono (forall_mem_nil _)
    obtain ⟨c, known, seated⟩ := makes.seated
    obtain ⟨c', known', feeds⟩ := makes.feeds
    cases known.symm.trans known'
    have sources := View.Houses.sources_child (v := v) inSight bindings locals
    refine ⟨houses.made sources makes key, makes.grows, spares _, makes.named, ?_, ?_, Subset.refl _⟩
    · exact View.isRefreshed_of_feeds seated (accepts c known) feeds
        fun code => houses.eval_eq (spares _) locals code
    · intro d member
      rw [View.fieldCells_eq, makes.children, View.fieldCellsAll, append_nil] at member
      exact .inr (makes.new d member)

namespace HasBegun

variable {key component : String} {bindings : List BoundArgument} {locals : List (String × Json)}
  {child child' : View} {former : List (String × View)} {w' : World}
  (begun : catalog.HasBegun v sight held subscriptions e key component bindings locals child w former)
include begun

theorem spares : e.world.Spares (View.fieldCellsAll e.former) w :=
  World.Spares.trans (.refl _ _) (.refl _) begun.bound fun d bound =>
    begun.old d (View.mem_fieldCells_of_mem_boundCells bound)

variable
  (leaves : catalog.Leaves (v.ownCells ++ sight)
    (View.ownedCellsAll (former ++ e.children) ++ (v.ownCells ++ held))
    (View.ownedSubscriptionsAll (former ++ e.children) ++ (v.subscriptions ++ subscriptions))
    child w child' w')
include leaves

/-- The child in its new state is at its place, and no more than cells of children was written. -/
theorem rendered :
    v.Houses catalog sight held subscriptions ((key, child') :: (former ++ e.children)) w' ∧
      e.world.Grows w' ∧ e.world.Spares (View.fieldCellsAll e.former) w' := by
  refine ⟨begun.houses.replace leaves.grows leaves.houses leaves.fieldCells,
    begun.grows.trans leaves.grows, begun.spares.trans begun.grows leaves.spares fun d member => ?_⟩
  refine begun.old d ?_
  rw [View.fieldCells_eq]
  exact mem_append_right _ member

theorem withChild :
    v.Houses catalog sight held subscriptions
        (former ++ (e.withChild key child' w' former).children)
        (e.withChild key child' w' former).world ∧
      e.Advances (e.withChild key child' w' former) := by
  obtain ⟨houses, grows, spares⟩ := begun.rendered leaves
  constructor
  · -- the child that had the key is dropped
    refine View.Houses.dropAll (houses.fewer (List.Perm.subperm ?_))
    have perm := (View.perm_insertChild key child' e.children).append_left former
    rw [← append_assoc] at perm
    exact (perm_append_comm.trans perm).trans perm_middle
  · constructor
    case grows => exact grows.trans (w'.grows_dropAll _)
    case spares => exact spares.trans_nothing grows (w'.spares_dropAll _)
    case former => exact fun _ => (View.fieldCellsAll_subset begun.fewer ·)
    case children =>
      intro d member
      rw [View.fieldCellsAll_eq] at member
      obtain ⟨entry, isChild, inside⟩ := mem_flatMap.mp member
      rcases mem_insertChild isChild with rfl | old
      · refine .inr ((leaves.fieldCells d inside).elim (begun.old d) fun new => .inr ?_)
        exact Nat.le_trans begun.grows.store.size new
      · rw [View.fieldCellsAll_eq]
        exact .inl (mem_flatMap.mpr ⟨entry, old, inside⟩)

theorem failed :
    v.Houses catalog sight held subscriptions (former ++ e.children) (w'.drop child') ∧
      e.Advances { e with former, world := w'.drop child' } := by
  obtain ⟨houses, grows, spares⟩ := begun.rendered leaves
  have drop : w'.drop child' = w'.dropAll [(key, child')] := by
    simp [World.drop, World.dropAll, View.ownedCellsAll, View.ownedSubscriptionsAll]
  rw [drop]
  exact ⟨View.Houses.dropAll houses, grows.trans (w'.grows_dropAll _),
    spares.trans_nothing grows (w'.spares_dropAll _),
    fun _ => (View.fieldCellsAll_subset begun.fewer ·), fun _ => .inl⟩

end HasBegun

/-- Whether the child for a marker is rendered or that fails, views are left at their places. -/
theorem renderChild_advances (trees : catalog.LeavesTrees render) {provided : Provided}
    {key component : String} {bindings : List BoundArgument} {locals : List (String × Json)}
    (inSight : ∀ entry ∈ provided, entry.2 ∈ sight)
    (accepts : ∀ c, catalog.find? component = some c → c.Accepts bindings)
    (houses : v.Houses catalog sight held subscriptions (e.former ++ e.children) e.world)
    {result : Except RenderFault (List ViewNode)}
    (ran : (catalog.renderChild render (v.provided ++ provided) key component bindings
      ⟨v.fields, locals⟩).run.run e = (result, e')) :
    v.Houses catalog sight held subscriptions (e'.former ++ e'.children) e'.world ∧
      e.Advances e' := by
  have inSight' := v.inSight_child inSight
  rcases catalog.begins_or_fails (v.provided ++ provided) key component bindings ⟨v.fields, locals⟩ e
    with ⟨child, w, former, begins⟩ | ⟨missing, fault, w, failed⟩
  · have begun := begins.hasBegun inSight accepts houses
    rw [run_renderChild begins] at ran
    split at ran
    next fault child' w' rendered =>
      cases ran
      exact begun.failed (trees _ _ _ _ _ _ _ _ _ rendered inSight' begun.houses.child)
    next child' w' rendered =>
      cases ran
      exact begun.withChild (trees _ _ _ _ _ _ _ _ _ rendered inSight' begun.houses.child)
  · rw [run_renderChild_of_fails missing failed] at ran
    cases ran
    have sources := View.Houses.sources_child (v := v) inSight bindings locals
    obtain ⟨quiet, grows, spares, owns⟩ := instantiate_releases houses.quiet houses.owns
      (fun d isSource => houses.mem_held (sources d isSource)) failed
    exact ⟨houses.grows grows quiet owns, grows, spares.mono nofun, fun _ => id, fun _ => .inl⟩

/-! ## Rendering views -/

/-- Every marker of a component gives its child arguments that the child accepts. -/
def HasFitCalls (catalog : Catalog) : Prop :=
  ∀ c ∈ catalog.components, ∀ m ∈ Stmt.openingsAll c.render.body, ∀ bindings,
    m.role = .component bindings → ∀ child, catalog.find? m.component = some child →
      child.Accepts bindings

theorem renderWith_leavesTrees (fit : catalog.HasFitCalls) (trees : catalog.LeavesTrees render) :
    catalog.LeavesTrees (catalog.renderWith render) := by
  intro view provided w outcome view' w' sight held subscriptions rendered inSight houses
  obtain ⟨c, _, found, _⟩ := houses.sits
  have member := Catalog.mem_of_find? found
  have keeps : ExecM.Keeps (fun e => view.Houses catalog sight held subscriptions
        (e.former ++ e.children) e.world ∧ (view.start w).Advances e)
      ((catalog.runner render view provided c).run c.render.body) := by
    refine BodyRunner.run_keeps ?_ ?_
    · rintro e e' same ⟨houses, advances⟩
      refine ⟨?_, advances.trans (.of_sameViews same)⟩
      rw [same.former, same.children, same.world]
      exact houses
    · rintro m isMarker bindings role key locals e ⟨houses, advances⟩
      obtain ⟨houses, step⟩ := renderChild_advances trees inSight
        (fit c member m isMarker bindings role) houses rfl
      exact ⟨houses, advances.trans step⟩
  obtain ⟨houses, advances⟩ := keeps (view.start w) ⟨houses.start, .refl _⟩
  have old : ∀ d ∈ View.fieldCellsAll (((catalog.runner render view provided c).run
      c.render.body).run.run (view.start w)).2.children,
      d ∈ View.fieldCellsAll view.keyedChildren ∨ w.store.cells.length ≤ d :=
    fun d isCell => (advances.children d isCell).resolve_left (absurd · not_mem_nil)
  cases ran : ((catalog.runner render view provided c).run c.render.body).run.run
      (view.start w) with
  | mk result e =>
    rw [ran] at houses advances old
    cases result with
    | ok nodes =>
      rw [renderWith_of_ok found ran] at rendered
      cases rendered
      have same : view.SameInstance (view.rendered e.children e.history e.activations
        (.mk c.name [] [] none nodes)) := ⟨rfl, rfl, rfl, rfl, rfl⟩
      exact ⟨same, houses.dropAll.sameInstance same, advances.grows.trans (e.world.grows_dropAll _),
        advances.spares.trans_nothing advances.grows (e.world.spares_dropAll _), old⟩
    | error fault =>
      rw [renderWith_of_error found ran] at rendered
      cases rendered
      -- the view has no children left, whichever of them were met
      have same : view.SameInstance (view.withChildren [] e.history) := ⟨rfl, rfl, rfl, rfl, rfl⟩
      rw [← append_nil (e.former ++ e.children)] at houses
      exact ⟨same, houses.dropAll.sameInstance same, advances.grows.trans (e.world.grows_dropAll _),
        advances.spares.trans_nothing advances.grows (e.world.spares_dropAll _), nofun⟩

/-- Rendering leaves trees at their places, whatever its outcome. -/
theorem render_leavesTrees (fit : catalog.HasFitCalls) (depth : Nat) :
    catalog.LeavesTrees (catalog.render depth) := by
  induction depth with
  | zero =>
    intro view provided w outcome view' w' sight held subscriptions rendered _ houses
    cases rendered
    exact ⟨.refl _, houses, .refl _, .refl _ _, fun _ => .inl⟩
  | succ depth ih => exact renderWith_leavesTrees fit ih

end Catalog

end ReactiveView
