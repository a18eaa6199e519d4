import ReactiveView.Proofs.BranchNumbers
import ReactiveView.Proofs.ChildKeys

/-!
# Addresses of markers

An address tells arms of different conditionals apart, and items of one loop, but not items of
different loops.  So the markers of a body whose conditionals are numbered have different addresses if
no two loops of one block have markers for the same component at the same place of their items.  Then
no two markers that are met in one execution of the body have the same key.
-/

namespace ReactiveView

open List

namespace Stmt

/-! ## Addresses in a body -/

mutual

/-- Where the markers of children in a statement stand, in the first items of loops. -/
def addresses (index : Nat) : Stmt → List Address
  | .opening marker =>
    match marker.role with
    | .component _ => [⟨[], index, marker.component⟩]
    | _ => []
  | .branch site arms _ => addressesBranches site arms
  | .items _ _ body => (addressesAll 0 body).map (.inside (.item 0))
  | .element _ _ | .choice _ _ | .forEach _ _ | .code _ _ | .closing _ => []

/-- Where the markers of children in the rest of a block stand. -/
def addressesAll (index : Nat) : List Stmt → List Address
  | [] => []
  | s :: rest => s.addresses index ++ addressesAll (index + 1) rest

/-- Where the markers of children in the arms of a conditional stand. -/
def addressesBranches (site : UInt32) : List (BranchArm Stmt) → List Address
  | [] => []
  | ⟨_, branchId, body⟩ :: rest =>
    (addressesAll 0 body).map (.inside (.arm site branchId)) ++ addressesBranches site rest

end

/-- Where the markers of children stand in an item of a loop. -/
def itemAddresses : Stmt → List Address
  | .items _ _ body => addressesAll 0 body
  | _ => []

mutual

/-- Whether no two loops of one block in a statement have markers for the same component at the same
    place of their items. -/
def hasLoopsApart : Stmt → Bool
  | .branch _ arms _ => haveLoopsApartBranches arms
  | .items _ _ body => haveLoopsApart body
  | .element _ _ | .choice _ _ | .forEach _ _ | .code _ _ | .opening _ | .closing _ => true

/-- Whether the loops of a block are apart, and of the blocks in it. -/
def haveLoopsApart : List Stmt → Bool
  | [] => true
  | s :: rest =>
    s.hasLoopsApart && (rest.all fun t => t.itemAddresses.all (· ∉ s.itemAddresses)) &&
      haveLoopsApart rest

/-- Whether the loops of the arms of a conditional are apart. -/
def haveLoopsApartBranches : List (BranchArm Stmt) → Bool
  | [] => true
  | ⟨_, _, body⟩ :: rest => haveLoopsApart body && haveLoopsApartBranches rest

end

/-! ## Markers have different addresses -/

/-- What an address in the statement at a position can be. -/
inductive Stands (index : Nat) (s : Stmt) : Address → Prop
  | marker {component : String} : Stands index s ⟨[], index, component⟩
  | arm {site branchId : UInt32} {turns : List Turn} {position : Nat} {component : String}
      (member : site ∈ s.conditionals.map (·.1)) :
      Stands index s ⟨.arm site branchId :: turns, position, component⟩
  | item {turns : List Turn} {position : Nat} {component : String}
      (member : ⟨turns, position, component⟩ ∈ s.itemAddresses) :
      Stands index s ⟨.item 0 :: turns, position, component⟩

theorem exists_of_mem_addressesBranches {site : UInt32} {arms : List (BranchArm Stmt)}
    {a : Address} (member : a ∈ addressesBranches site arms) :
    ∃ branchId ∈ arms.map (·.branchId), ∃ b : Address, a = b.inside (.arm site branchId) := by
  induction arms with
  | nil => cases member
  | cons arm arms ih =>
    rw [addressesBranches, mem_append] at member
    rcases member with here | later
    · obtain ⟨b, _, rfl⟩ := mem_map.mp here
      exact ⟨arm.branchId, mem_cons_self, b, rfl⟩
    · obtain ⟨branchId, isBranch, b, rfl⟩ := ih later
      exact ⟨branchId, .tail _ isBranch, b, rfl⟩

theorem stands_of_mem {s : Stmt} {index : Nat} {a : Address} (member : a ∈ s.addresses index) :
    s.Stands index a := by
  cases s with
  | opening marker =>
    rw [addresses] at member
    split at member
    · rw [mem_singleton.mp member]
      exact .marker
    · cases member
  | branch site arms location =>
    rw [addresses] at member
    obtain ⟨branchId, _, b, rfl⟩ := exists_of_mem_addressesBranches member
    refine .arm ?_
    rw [conditionals, map_cons]
    exact mem_cons_self
  | items params keyGenerator body =>
    rw [addresses] at member
    obtain ⟨b, inBody, rfl⟩ := mem_map.mp member
    exact .item inBody
  | element | choice | forEach | code | closing =>
    rw [addresses] at member
    cases member

theorem stands_of_mem_all {body : List Stmt} {index : Nat} {a : Address}
    (member : a ∈ addressesAll index body) :
    ∃ s ∈ body, ∃ position, index ≤ position ∧ s.Stands position a := by
  induction body generalizing index with
  | nil => cases member
  | cons s rest ih =>
    rw [addressesAll, mem_append] at member
    rcases member with here | later
    · exact ⟨s, mem_cons_self, index, Nat.le_refl _, stands_of_mem here⟩
    · obtain ⟨t, isStmt, position, bound, stands⟩ := ih later
      exact ⟨t, .tail _ isStmt, position, Nat.le_of_succ_le bound, stands⟩

theorem mem_conditionalsAll {body : List Stmt} {s : Stmt} (member : s ∈ body)
    {c : UInt32 × List UInt32} (inside : c ∈ s.conditionals) : c ∈ conditionalsAll body := by
  induction member with
  | head => exact mem_append_left _ inside
  | tail _ _ ih => exact mem_append_right _ ih

mutual

theorem nodup_addresses : ∀ (s : Stmt) (index : Nat), AreDistinct s.conditionals →
    s.hasLoopsApart = true → (s.addresses index).Nodup
  | .opening marker, index, _, _ => by
    rw [addresses]
    split
    · exact nodup_singleton _
    · exact nodup_nil
  | .branch site arms location, index, distinct, apart => by
    rw [conditionals] at distinct
    obtain ⟨branches, inner⟩ := distinct.of_cons
    exact nodup_addressesBranches arms site inner apart branches
  | .items params keyGenerator body, index, distinct, apart => by
    rw [addresses, nodup_map_iff (Address.inside_injective _)]
    exact nodup_addressesAll body 0 distinct apart
  | .element _ _, _, _, _ | .choice _ _, _, _, _ | .forEach _ _, _, _, _ | .code _ _, _, _, _
  | .closing _, _, _, _ => by
    rw [addresses]
    exact nodup_nil

theorem nodup_addressesAll : ∀ (body : List Stmt) (index : Nat), AreDistinct (conditionalsAll body) →
    haveLoopsApart body = true → (addressesAll index body).Nodup
  | [], _, _, _ => nodup_nil
  | s :: rest, index, distinct, apart => by
    rw [conditionalsAll] at distinct
    obtain ⟨first, others, sites⟩ := distinct.of_append
    simp only [haveLoopsApart, Bool.and_eq_true, all_eq_true, decide_eq_true_eq] at apart
    obtain ⟨⟨inner, loops⟩, after⟩ := apart
    rw [addressesAll, nodup_append']
    refine ⟨nodup_addresses s index first inner, nodup_addressesAll rest (index + 1) others after, ?_⟩
    intro a here later
    obtain ⟨t, isStmt, position, bound, stands⟩ := stands_of_mem_all later
    cases stands_of_mem here with
    | marker =>
      -- a marker of the block itself has its position
      cases stands with
      | marker => exact Nat.not_succ_le_self _ bound
    | arm member =>
      cases stands with
      | arm member' =>
        obtain ⟨c, inside, rfl⟩ := mem_map.mp member'
        exact sites _ member (mem_map_of_mem (mem_conditionalsAll isStmt inside))
    | item member =>
      cases stands with
      | item member' => exact loops t isStmt _ member' member

theorem nodup_addressesBranches : ∀ (arms : List (BranchArm Stmt)) (site : UInt32),
    AreDistinct (conditionalsBranches arms) → haveLoopsApartBranches arms = true →
    (arms.map (·.branchId)).Nodup → (addressesBranches site arms).Nodup
  | [], _, _, _, _ => nodup_nil
  | ⟨_, branchId, body⟩ :: rest, site, distinct, apart, branches => by
    rw [conditionalsBranches] at distinct
    obtain ⟨first, others, _⟩ := distinct.of_append
    rw [haveLoopsApartBranches, Bool.and_eq_true] at apart
    rw [map_cons, nodup_cons] at branches
    rw [addressesBranches, nodup_append', nodup_map_iff (Address.inside_injective _)]
    refine ⟨nodup_addressesAll body 0 first apart.1,
      nodup_addressesBranches rest site others apart.2 branches.2, ?_⟩
    intro a here later
    obtain ⟨b, _, rfl⟩ := mem_map.mp here
    obtain ⟨branchId', isBranch, b', same⟩ := exists_of_mem_addressesBranches later
    simp only [Address.inside, Address.mk.injEq, List.cons.injEq, Turn.arm.injEq] at same
    obtain ⟨⟨⟨_, rfl⟩, _⟩, _⟩ := same
    exact branches.1 isBranch

end

end Stmt

/-! ## Markers that are met have different keys -/

/-- The arm, or the first item of the loop. -/
def Turn.first : Turn → Turn
  | .arm site branchId => .arm site branchId
  | .item _ => .item 0

/-- The address of the same marker in the first items of loops. -/
def Address.atFirst (a : Address) : Address := { a with turns := a.turns.map Turn.first }

/-- The markers that are met stand at different places below a path, which are among the given
    addresses up to the items. -/
structure Placed (path : List String) (given : List Address) (visits : List RenderVisit)
    (places : List Address) : Prop where
  keys : (markers visits).map (·.key) = places.map (·.keyBelow path)
  nodup : places.Nodup
  among : ∀ a ∈ places, a.atFirst ∈ given

namespace Placed

variable {path : List String} {given more : List Address} {visits visits' : List RenderVisit}
  {places places' : List Address}

theorem nil (path : List String) (given : List Address) : Placed path given [] [] :=
  ⟨rfl, nodup_nil, nofun⟩

theorem mono (placed : Placed path given visits places) (fewer : given ⊆ more) :
    Placed path more visits places :=
  ⟨placed.keys, placed.nodup, fun a member => fewer (placed.among a member)⟩

theorem append (placed : Placed path given visits places)
    (after : Placed path given visits' places') (apart : ∀ a ∈ places, a ∉ places') :
    Placed path given (visits ++ visits') (places ++ places') where
  keys := by rw [markers_append, map_append, placed.keys, after.keys, map_append]
  nodup := nodup_append'.mpr ⟨placed.nodup, after.nodup, fun a here => apart a here⟩
  among := forall_mem_append.mpr ⟨placed.among, after.among⟩

theorem inside (turn : Turn) (placed : Placed (path ++ [turn.text]) given visits places) :
    Placed path (given.map (.inside turn.first)) visits (places.map (.inside turn)) where
  keys := by
    rw [placed.keys, map_map]
    exact map_congr_left fun a _ => (a.keyBelow_inside path turn).symm
  nodup := placed.nodup.map (Address.inside_injective turn)
  among := by
    intro a member
    obtain ⟨b, isPlace, rfl⟩ := mem_map.mp member
    exact mem_map.mpr ⟨b.atFirst, placed.among b isPlace, rfl⟩

theorem unmarked {visit : RenderVisit} (placed : Placed path given visits places)
    (silent : visit.marker? = none) : Placed path given (visit :: visits) places :=
  ⟨by rw [markers, filterMap_cons_none silent]; exact placed.keys, placed.nodup, placed.among⟩

end Placed

theorem Stmt.sublist_addressesBranches (site : UInt32) {arms : List (BranchArm Stmt)}
    {position : Nat} {arm : BranchArm Stmt} (chosen : arms[position]? = some arm) :
    ((addressesAll 0 arm.body).map (.inside (.arm site arm.branchId))).Sublist
      (addressesBranches site arms) := by
  induction arms generalizing position with
  | nil => cases chosen
  | cons head arms ih =>
    rw [addressesBranches]
    cases position with
    | zero =>
      cases chosen
      exact sublist_append_left _ _
    | succ position => exact (ih chosen).trans (sublist_append_right _ _)

open Stmt

mutual

theorem CoversStmt.placed {path : List String} {index : Nat} {s : Stmt}
    {visits : List RenderVisit} : CoversStmt path index s visits → (s.addresses index).Nodup →
    ∃ places, Placed path (s.addresses index) visits places
  | .plain _, _ | .closing, _ | .code, _ => ⟨[], .nil _ _⟩
  | .none, _ => ⟨[], (Placed.nil _ _).unmarked rfl⟩
  | @CoversStmt.child _ _ marker _ _ role, _ => by
    refine ⟨[⟨[], index, marker.component⟩], ⟨?_, nodup_singleton _, ?_⟩⟩
    · simp [markers, RenderVisit.marker?, MetMarker.key, Address.keyBelow]
    · simp [addresses, role, Address.atFirst]
  | @CoversStmt.arm _ _ site _ _ _ arm _ chosen inner, nodup => by
    rw [addresses] at nodup ⊢
    have sublist := sublist_addressesBranches site chosen
    obtain ⟨places, placed⟩ := inner.placed (nodup.sublist sublist).of_map
    have placed := Placed.inside (.arm site arm.branchId) placed
    exact ⟨_, (placed.mono sublist.subset).unmarked rfl⟩
  | .items each, nodup => by
    rw [addresses] at nodup ⊢
    obtain ⟨places, placed, _⟩ := each.placed nodup.of_map
    exact ⟨places, placed.unmarked rfl⟩

theorem Covers.placed {path : List String} {index : Nat} {body : List Stmt}
    {visits : List RenderVisit} : Covers path index body visits →
    (addressesAll index body).Nodup → ∃ places, Placed path (addressesAll index body) visits places
  | .nil, _ => ⟨[], .nil _ _⟩
  | .cons head tail, nodup => by
    rw [addressesAll, nodup_append'] at nodup
    obtain ⟨first, others, apart⟩ := nodup
    obtain ⟨places, placed⟩ := head.placed first
    obtain ⟨places', placed'⟩ := tail.placed others
    refine ⟨places ++ places', (placed.mono (subset_append_left _ _)).append
      (placed'.mono (subset_append_right _ _)) ?_⟩
    intro a here later
    exact apart (placed.among a here) (placed'.among a later)

theorem CoversItems.placed {path : List String} {index count : Nat} {body : List Stmt}
    {visits : List RenderVisit} : CoversItems path body index count visits →
    (addressesAll 0 body).Nodup →
    ∃ places, Placed path ((addressesAll 0 body).map (.inside (.item 0))) visits places ∧
      ∀ a ∈ places, ∃ n, index ≤ n ∧ a.turns.head? = some (.item n)
  | .nil, _ => ⟨[], .nil _ _, nofun⟩
  | .cons head tail, nodup => by
    obtain ⟨places, placed⟩ := head.placed nodup
    obtain ⟨places', placed', later⟩ := tail.placed nodup
    have placed := Placed.inside (.item index) placed
    refine ⟨_, placed.append placed' ?_, ?_⟩
    · -- the items differ
      intro a here again
      obtain ⟨b, _, rfl⟩ := mem_map.mp here
      obtain ⟨n, bound, same⟩ := later _ again
      cases same
      exact Nat.not_succ_le_self _ bound
    · intro a member
      rcases mem_append.mp member with here | again
      · obtain ⟨b, _, rfl⟩ := mem_map.mp here
        exact ⟨index, Nat.le_refl _, rfl⟩
      · obtain ⟨n, bound, same⟩ := later a again
        exact ⟨n, Nat.le_of_succ_le bound, same⟩

end

/-- The markers that are met in an execution of a body have different keys if its markers have
    different addresses. -/
theorem Covers.nodup_keys_of_addresses {body : List Stmt} {visits : List RenderVisit}
    (covers : Covers [] 0 body visits) (distinct : (addressesAll 0 body).Nodup) :
    ((markers visits).map (·.key)).Nodup := by
  obtain ⟨places, placed⟩ := covers.placed distinct
  rw [placed.keys]
  exact placed.nodup.map Address.keyBelow_injective

/-- The markers that are met in an execution of a numbered body with loops apart have different
    keys. -/
theorem Covers.nodup_keys {body : List Stmt} {visits : List RenderVisit}
    (covers : Covers [] 0 body visits) (distinct : AreDistinct (conditionalsAll body))
    (apart : haveLoopsApart body = true) : ((markers visits).map (·.key)).Nodup :=
  covers.nodup_keys_of_addresses (nodup_addressesAll body 0 distinct apart)

end ReactiveView
