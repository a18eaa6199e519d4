import ReactiveView.Proofs.DecodedLevels
import ReactiveView.Proofs.ModuleLowering

/-!
# Levels of lowered components

Lowering moves code between levels in both directions.  Elements are flattened, but an arm of a
conditional gets markers of its own, and the role of a marker is a level: the encoding of a lowered
body may have three levels more than a document for the body needs, and not more
(`LowersAll.nesting_le`).  A lowered component stands one level higher than in a module, which makes
two levels for the component as a whole (`Module.nesting_of_lowered`).
-/

namespace ReactiveView

open List
open Json (nesting itemsNesting membersNesting ofStrings ofString?)

/-! ## Parts without statements -/

theorem Json.itemsNesting_append (vs ws : List Json) :
    itemsNesting (vs ++ ws) = max (itemsNesting vs) (itemsNesting ws) := by
  induction vs with
  | nil => simp [itemsNesting]
  | cons v vs ih =>
    rw [cons_append, itemsNesting, itemsNesting, ih]
    omega

theorem Json.itemsNesting_map_le {α : Type} {encode : α → Json} {as : List α} {h : Nat}
    (each : ∀ a ∈ as, (encode a).nesting ≤ h) : itemsNesting (as.map encode) ≤ h :=
  (Json.deepest_le_iff rfl fun _ _ => rfl).mpr (forall_mem_map.mpr each)

@[simp] theorem Json.nesting_ofString? (s : Option String) : (ofString? s).nesting = 0 := by
  cases s <;> rfl

@[simp] theorem Json.nesting_ofStrings (ss : List String) : (ofStrings ss).nesting = 1 := by
  have flat : itemsNesting (ss.map .str) ≤ 0 := itemsNesting_map_le fun _ _ => Nat.le_refl 0
  rw [ofStrings, nesting]
  omega

@[simp] theorem Json.nesting_ofUInt32 (n : UInt32) : (ofUInt32 n).nesting = 0 := rfl

@[simp] theorem Location.nesting_encode (l : Location) : l.encode.nesting = 1 := rfl

@[simp] theorem Attribute.nesting_encode (a : Attribute) : a.encode.nesting = 2 := by
  simp [Attribute.encode, nesting, membersNesting]

@[simp] theorem BindingKind.nesting_encode (b : BindingKind) : b.encode.nesting = 1 := by
  cases b <;> rfl

@[simp] theorem Decorator.nesting_encode (d : Decorator) : d.encode.nesting = 1 := by
  cases d <;> simp [Decorator.encode, nesting, membersNesting]

@[simp] theorem BoundArgument.nesting_encode (b : BoundArgument) : b.encode.nesting = 2 := by
  have value : b.value.encode.nesting = 1 := by cases b.value <;> rfl
  simp [BoundArgument.encode, nesting, membersNesting, value]

theorem Role.nesting_le (role : Role) : role.encode.nesting ≤ 4 := by
  cases role with
  | component bindings =>
    have each : itemsNesting (bindings.map BoundArgument.encode) ≤ 2 :=
      Json.itemsNesting_map_le fun b _ => Nat.le_of_eq b.nesting_encode
    simp only [Role.encode, nesting, membersNesting]
    omega
  | _ => simp [Role.encode, nesting, membersNesting]

theorem OpenMarker.nesting_le {m : OpenMarker} {h : Nat} (role : m.role.encode.nesting ≤ h) :
    (Stmt.opening m).encode.nesting ≤ 1 + max 3 h := by
  have each : itemsNesting (m.attributes.map Attribute.encode) ≤ 2 :=
    Json.itemsNesting_map_le fun a _ => Nat.le_of_eq a.nesting_encode
  simp only [Stmt.encode, OpenMarker.members, nesting, membersNesting, Json.nesting_ofStrings,
    Location.nesting_encode]
  omega

/-! ## Lowered bodies -/

theorem under_three_le (n : Nat) : under 3 n ≤ under 2 n + 1 := by
  unfold under
  split <;> omega

theorem max_le_under {a b m n : Nat} (pos : 0 < m) (first : a ≤ m + 3) (others : b ≤ under 3 n) :
    max a b ≤ under 3 (max m n) := by
  unfold under at *
  rw [if_neg (by omega)]
  split at others <;> omega

theorem Stmt.encodeAll_append (body rest : List Stmt) :
    Stmt.encodeAll (body ++ rest) = Stmt.encodeAll body ++ Stmt.encodeAll rest := by
  induction body with
  | nil => rfl
  | cons s body ih => rw [cons_append, Stmt.encodeAll, ih, Stmt.encodeAll, cons_append]

theorem Stmt.nesting_closing (m : CloseMarker) : (Stmt.closing m).encode.nesting = 1 := by
  obtain ⟨_, branchId⟩ := m
  cases branchId <;> rfl

theorem Stmt.nesting_branch (site : UInt32) (arms : List (BranchArm Stmt)) (location : Location) :
    (Stmt.branch site arms location).encode.nesting =
      2 + itemsNesting (Stmt.encodeBranchArms arms) := by
  simp [Stmt.encode, nesting, membersNesting]
  omega

theorem Stmt.nesting_items (params : List String) (keyGenerator : Option String)
    (body : List Stmt) :
    (Stmt.items params keyGenerator body).encode.nesting =
      2 + itemsNesting (Stmt.encodeAll body) := by
  simp [Stmt.encode, nesting, membersNesting]
  omega

theorem Stmt.nesting_conditional (name : String) (site : UInt32) (location : Location) :
    (Stmt.opening ⟨name, [], [], .conditional site, location⟩).encode.nesting = 2 := rfl

theorem Stmt.nesting_arm (name : String) (site branchId : UInt32) (location : Location) :
    (Stmt.opening ⟨name, [], [], .arm site branchId, location⟩).encode.nesting = 2 := rfl

theorem Stmt.nesting_loop (name source : String) (location : Location) :
    (Stmt.opening ⟨name, [source], [], .loop, location⟩).encode.nesting = 2 := rfl

theorem Stmt.nesting_code (text : String) (location : Location) :
    (Stmt.code text location).encode.nesting = 2 := rfl

theorem Stmt.span_pos (s : Stmt) : 0 < s.span := by
  cases s <;> simp only [Stmt.span] <;> (try split) <;> omega

theorem CallSite.bind_nil {site : CallSite} {child : Component} {bound : List BoundArgument}
    (binds : site.bind child [] = .ok bound) : bound = [] := by
  have each : ∀ (rows : List FieldRow) (bound : List BoundArgument),
      site.bindFields child.name [] rows = .ok bound → bound = [] := by
    intro rows
    induction rows with
    | nil =>
      intro bound same
      cases same
      rfl
    | cons row rows ih =>
      intro bound ran
      obtain ⟨first, head, ran⟩ := except_bind_ok_iff.mp ran
      obtain ⟨rest, tail, same⟩ := except_bind_ok_iff.mp ran
      cases same
      have unbound : first = none := by
        rw [lookup_nil, bindField] at head
        split at head
        · cases head
        · split at head <;> cases head
          rfl
        · cases head
          rfl
      rw [unbound, ih rest tail]
      rfl
  exact each _ _ binds

namespace BodyContext

variable {ctx : BodyContext} {method : String}

theorem openElement_nesting_le {head : Element} {marker : OpenMarker}
    (opened : ctx.openElement head = .ok marker) :
    (Stmt.opening marker).encode.nesting ≤ (if head.args = [] then 1 else 3) + 3 := by
  cases names : ctx.child? head.name with
  | none =>
    have small := OpenMarker.nesting_le (m := marker) (h := 1) (by
      rw [openElement_plain names opened]
      exact Nat.le_refl 1)
    split <;> omega
  | some child =>
    obtain ⟨bound, binds, rfl⟩ := openElement_child names opened
    split
    next empty =>
      rw [empty] at binds
      rw [CallSite.bind_nil binds]
      exact OpenMarker.nesting_le (h := 2) (Nat.le_refl 2)
    next => exact Nat.le_trans (OpenMarker.nesting_le (Role.nesting_le _)) (by decide)

-- By the rules of lowering.  The three levels are those of an arm that was written without a body: it
-- gets one with a marker in it, and the marker has a role.
mutual

theorem Lowers.nesting_le {stmt : Stmt} {out : List Stmt} {s s' : LoweringState} :
    Lowers ctx method stmt s out s' → itemsNesting (Stmt.encodeAll out) ≤ stmt.span + 3
  | .element opened body => by
    have start := openElement_nesting_le opened
    have inner := Nat.le_trans body.nesting_le (under_three_le _)
    simp only [cons_append, Stmt.encodeAll, Stmt.encodeAll_append, itemsNesting,
      Json.itemsNesting_append, Stmt.nesting_closing, Stmt.span]
    omega
  | .choice placed each => by
    have inner := Nat.le_trans each.nesting_le (under_three_le _)
    simp only [conditional, Stmt.encodeAll, itemsNesting, Stmt.nesting_conditional,
      Stmt.nesting_branch, Stmt.nesting_closing, Stmt.span]
    omega
  | .forEach head each => by
    have inner := Nat.le_trans each.nesting_le (under_three_le _)
    simp only [loopBody, Stmt.encodeAll, itemsNesting, Stmt.nesting_loop, Stmt.nesting_items,
      Stmt.nesting_closing, Stmt.span]
    omega
  | .code _ => by
    simp only [Stmt.encodeAll, itemsNesting, Stmt.nesting_code, Stmt.span]
    omega
  | .opening => by
    simp only [Stmt.encodeAll, itemsNesting, Stmt.span]
    exact Nat.max_le.mpr ⟨OpenMarker.nesting_le (Role.nesting_le _), Nat.zero_le _⟩
  | .closing => by
    simp only [Stmt.encodeAll, itemsNesting, Stmt.nesting_closing, Stmt.span]
    omega
  | .branch each => by
    have inner := Nat.le_trans each.nesting_le (under_three_le _)
    simp only [Stmt.encodeAll, itemsNesting, Stmt.nesting_branch, Stmt.span]
    omega
  | .items each => by
    have inner := Nat.le_trans each.nesting_le (under_three_le _)
    simp only [Stmt.encodeAll, itemsNesting, Stmt.nesting_items, Stmt.span]
    omega

theorem LowersAll.nesting_le {body out : List Stmt} {s s' : LoweringState} :
    LowersAll ctx method body s out s' →
      itemsNesting (Stmt.encodeAll out) ≤ under 3 (Stmt.spanAll body)
  | .nil => Nat.zero_le _
  | .cons head tail => by
    rw [Stmt.encodeAll_append, Json.itemsNesting_append, Stmt.spanAll]
    exact max_le_under (Stmt.span_pos _) head.nesting_le tail.nesting_le

theorem LowersArms.nesting_le {site : UInt32} {location : Location} {index : Nat}
    {arms : List (Arm Stmt)} {out : List (BranchArm Stmt)} {s s' : LoweringState} :
    LowersArms ctx method site location index arms s out s' →
      itemsNesting (Stmt.encodeBranchArms out) ≤ under 3 (Stmt.spanArms arms)
  | .nil => Nat.zero_le _
  | .cons kept head tail => by
    have inner := Nat.le_trans head.nesting_le (under_three_le _)
    rw [Stmt.encodeBranchArms, itemsNesting, Stmt.spanArms]
    apply max_le_under (by omega) ?_ tail.nesting_le
    -- the markers of the arm stand in a body that may have been left out
    simp only [armBody, cons_append, Stmt.encodeAll, Stmt.encodeAll_append, itemsNesting,
      Json.itemsNesting_append, Stmt.nesting_arm, Stmt.nesting_closing, nesting, membersNesting,
      Json.nesting_ofString?, Json.nesting_ofUInt32]
    omega

theorem LowersKnown.nesting_le {arms out : List (BranchArm Stmt)} {s s' : LoweringState} :
    LowersKnown ctx method arms s out s' →
      itemsNesting (Stmt.encodeBranchArms out) ≤ under 3 (Stmt.spanBranchArms arms)
  | .nil => Nat.zero_le _
  | .cons head tail => by
    have inner := Nat.le_trans head.nesting_le (under_three_le _)
    rw [Stmt.encodeBranchArms, itemsNesting, Stmt.spanBranchArms]
    apply max_le_under (by omega) ?_ tail.nesting_le
    simp only [nesting, membersNesting, Json.nesting_ofString?, Json.nesting_ofUInt32]
    omega

end

end BodyContext

/-! ## Lowered components -/

theorem Member.nesting_method (m : Method) :
    (Member.method m).encode.nesting = 2 + itemsNesting (Stmt.encodeAll m.body) := by
  simp [Member.encode, Method.members, Stmt.encodeBody, nesting, membersNesting]
  omega

theorem BranchRegistry.nesting_le (r : BranchRegistry) : r.encode.nesting ≤ 4 := by
  have numbers : ∀ ns : List UInt32, itemsNesting (ns.map Json.ofUInt32) ≤ 0 := fun ns =>
    Json.itemsNesting_map_le fun _ _ => Nat.le_refl 0
  have sites : itemsNesting (r.sites.map BranchSite.encode) ≤ 2 := by
    apply Json.itemsNesting_map_le
    intro site _
    have := numbers site.branchIds
    simp only [BranchSite.encode, nesting, membersNesting, Json.nesting_ofUInt32,
      Location.nesting_encode]
    omega
  simp only [BranchRegistry.encode, nesting, membersNesting]
  omega

/-- Only members and the render body can be deep. -/
theorem LoweredComponent.nesting_le {c : LoweredComponent} {h : Nat} (least : 5 ≤ h)
    (members : ∀ m ∈ c.decl.members, 3 + m.encode.nesting ≤ h)
    (body : 4 + itemsNesting (Stmt.encodeAll c.decl.render.body) ≤ h) : c.encode.nesting ≤ h := by
  have registry := c.branchRegistry.nesting_le
  have each : itemsNesting (c.decl.members.map Member.encode) ≤ h - 3 :=
    Json.itemsNesting_map_le fun m member => Nat.le_sub_of_add_le' (members m member)
  simp only [LoweredComponent.encode, Component.encode, Render.encode, Stmt.encodeBody, nesting,
    membersNesting, Json.nesting_ofStrings, Location.nesting_encode]
  omega

namespace ModuleScope

variable {scope : ModuleScope} {c : Component}

theorem LowersMember.nesting_le {m out : Member} {s s' : LoweringState}
    (lowers : scope.LowersMember c m s out s') :
    out.encode.nesting ≤ 4 ∨ ∃ source, m = .method source ∧
      out.encode.nesting ≤ 2 + under 3 (Stmt.spanAll source.body) := by
  cases lowers with
  | @builder source _ _ _ _ body =>
    refine .inr ⟨source, rfl, ?_⟩
    rw [Member.nesting_method]
    exact Nat.add_le_add_left body.lowers.nesting_le 2
  | @ordinary source out _ _ body =>
    left
    rw [Member.nesting_method]
    have flat : itemsNesting (Stmt.encodeAll out) ≤ 2 := by
      have code := code_of_ordinaryBody body
      clear body
      induction out with
      | nil => exact Nat.zero_le 2
      | cons stmt out ih =>
        rw [forall_mem_cons] at code
        obtain ⟨⟨text, location, rfl⟩, code⟩ := code
        exact Nat.max_le.mpr ⟨Nat.le_refl 2, ih code⟩
    exact Nat.add_le_add_left flat 2
  | field | wrapper | accessors =>
    left
    simp [Member.encode, Field.members, Wrapper.members, Accessors.members, nesting, membersNesting]

theorem LowersMembers.exists_of_mem {members out : List Member} {s s' : LoweringState}
    (lowers : scope.LowersMembers c members s out s') {n : Member} (member : n ∈ out) :
    ∃ m ∈ members, ∃ t t', scope.LowersMember c m t n t' := by
  induction lowers with
  | nil => cases member
  | cons head _ ih =>
    rcases mem_cons.mp member with rfl | later
    · exact ⟨_, mem_cons_self, _, _, head⟩
    · obtain ⟨m, isMember, lowers⟩ := ih later
      exact ⟨m, .tail _ isMember, lowers⟩

end ModuleScope

/-- A lowered component has at most two levels more than the document of its module. -/
theorem Module.nesting_of_lowered {m : Module} {d : Json.Doc} (read : Module.decode? d = some m)
    {options : Options} {parser : Script.Parser} {out : LoweredComponent}
    (lowered : out ∈ (m.lower options parser).lowered) :
    out.encode.nesting ≤ max 7 (d.height + 2) := by
  obtain ⟨c, declared, accepted⟩ := Module.exists_of_mem_lowered lowered
  obtain ⟨_, _, body, members, _, _, render, methods, rfl⟩ :=
    ModuleScope.lowerComponent_ok_iff.mp accepted
  obtain ⟨rendered, inMethods⟩ := Module.under_le_height read declared
  apply LoweredComponent.nesting_le (by omega)
  · intro n member
    -- the body of a method is inside six levels of the module, and inside five of the component
    obtain ⟨source, isMember, _, _, lowers⟩ := methods.exists_of_mem member
    rcases lowers.nesting_le with flat | ⟨method, rfl, levels⟩
    · omega
    · have within := inMethods method (Component.mem_methods_of_mem_loweredMembers isMember)
      rw [under_le] at within
      rw [under] at levels
      split at levels <;> omega
  · have levels := render.lowers.nesting_le
    show 4 + itemsNesting (Stmt.encodeAll body) ≤ _
    rw [under_le] at rendered
    rw [under] at levels
    split at levels <;> omega

end ReactiveView
