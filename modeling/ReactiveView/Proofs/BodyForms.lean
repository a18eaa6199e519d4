import ReactiveView.Binding.Instances
import ReactiveView.Proofs.LoweringRules

/-!
# Forms of bodies

A body is written in source forms (elements, conditionals, loops, code) and lowered to linear forms.
Lowering leaves no source form but code behind, it instantiates the same components in the same
order, and it counts the branches of every conditional from zero.
-/

namespace ReactiveView

namespace Stmt

mutual

/-- Whether a statement is written in source forms only. -/
def isSource : Stmt → Bool
  | .element _ children => areSource children
  | .choice arms _ => areSourceArms arms
  | .forEach _ body => areSource body
  | .code _ _ => true
  | .opening _ | .closing _ | .branch _ _ _ | .items _ _ _ => false

/-- Whether statements are written in source forms only. -/
def areSource : List Stmt → Bool
  | [] => true
  | s :: rest => s.isSource && areSource rest

/-- Whether arms are written in source forms only. -/
def areSourceArms : List (Arm Stmt) → Bool
  | [] => true
  | ⟨_, body⟩ :: rest => areSource body && areSourceArms rest

end

mutual

/-- Whether a statement is free of elements, conditionals and loops. -/
def isLinear : Stmt → Bool
  | .element _ _ | .choice _ _ | .forEach _ _ => false
  | .code _ _ | .opening _ | .closing _ => true
  | .branch _ arms _ => areLinearBranches arms
  | .items _ _ body => areLinear body

/-- Whether statements are free of elements, conditionals and loops. -/
def areLinear : List Stmt → Bool
  | [] => true
  | s :: rest => s.isLinear && areLinear rest

/-- Whether the arms of a lowered conditional are free of elements, conditionals and loops. -/
def areLinearBranches : List (BranchArm Stmt) → Bool
  | [] => true
  | ⟨_, _, body⟩ :: rest => areLinear body && areLinearBranches rest

end

mutual

/-- The opening markers in a statement. -/
def openings : Stmt → List OpenMarker
  | .element _ children => openingsAll children
  | .choice arms _ => openingsArms arms
  | .forEach _ body => openingsAll body
  | .code _ _ | .closing _ => []
  | .opening marker => [marker]
  | .branch _ arms _ => openingsBranches arms
  | .items _ _ body => openingsAll body

/-- The opening markers in statements. -/
def openingsAll : List Stmt → List OpenMarker
  | [] => []
  | s :: rest => s.openings ++ openingsAll rest

/-- The opening markers in the arms of a conditional. -/
def openingsArms : List (Arm Stmt) → List OpenMarker
  | [] => []
  | ⟨_, body⟩ :: rest => openingsAll body ++ openingsArms rest

/-- The opening markers in the arms of a lowered conditional. -/
def openingsBranches : List (BranchArm Stmt) → List OpenMarker
  | [] => []
  | ⟨_, _, body⟩ :: rest => openingsAll body ++ openingsBranches rest

end

@[simp] theorem areLinear_append (first second : List Stmt) :
    areLinear (first ++ second) = (areLinear first && areLinear second) := by
  induction first with
  | nil => simp [areLinear]
  | cons s first ih => simp [areLinear, ih, Bool.and_assoc]

@[simp] theorem openingsAll_append (first second : List Stmt) :
    openingsAll (first ++ second) = openingsAll first ++ openingsAll second := by
  induction first with
  | nil => rfl
  | cons s first ih => simp [openingsAll, ih]

@[simp] theorem instancesAll_append (known : String → Bool) (first second : List Stmt) :
    instancesAll known (first ++ second) =
      instancesAll known first ++ instancesAll known second := by
  induction first with
  | nil => simp [instancesAll]
  | cons s first ih => simp [instancesAll, ih]

end Stmt

/-! ## Elements -/

namespace BodyContext

variable {ctx : BodyContext} {method : String} {location : Location} {head : Element}
  {marker : OpenMarker}

theorem reporting_ok_iff {α : Type} {result : Except Fault α} {a : α} :
    ctx.reporting location result = .ok a ↔ result = .ok a := by
  cases result with
  | ok b =>
    change Except.ok b = .ok a ↔ _
    rw [Except.ok.injEq, Except.ok.injEq]
  | error fault =>
    change Except.error _ = .ok a ↔ _
    constructor
    · intro same
      cases same
    · intro same
      cases same

/-- An expression with its references to reactive fields resolved.  An expression that lowering
    refuses stays as it is. -/
def resolve (ctx : BodyContext) (code : String) : String :=
  match ctx.names.expression code ctx.parser with
  | .ok text => text
  | .error _ => code

theorem eq_resolve_of_expression_ok {code text : String}
    (kept : ctx.expression location code = .ok text) : text = ctx.resolve code := by
  rw [expression, reporting_ok_iff] at kept
  simp [resolve, kept]

/-- An attribute with the references in its arguments resolved. -/
def resolveAttribute (ctx : BodyContext) (a : Attribute) : Attribute :=
  { a with args := a.args.map ctx.resolve }

theorem eq_resolveAttribute_of_chained_ok {a b : Attribute}
    (kept : ctx.chained location a = .ok b) : b = ctx.resolveAttribute a := by
  obtain ⟨args, each, same⟩ := except_bind_ok_iff.mp kept
  cases same
  rw [mapM_ok_eq_map (fun _ _ => eq_resolve_of_expression_ok) each]
  rfl

/-- A bound argument with the references in its code resolved. -/
def resolveBound (ctx : BodyContext) (b : BoundArgument) : BoundArgument :=
  match b.value with
  | .expression code => { b with value := .expression (ctx.resolve code) }
  | .wrapper _ _ => b

theorem eq_resolveBound_of_boundArgument_ok {a b : BoundArgument}
    (kept : ctx.boundArgument location a = .ok b) : b = ctx.resolveBound a := by
  cases value : a.value with
  | expression code =>
    simp only [boundArgument, value] at kept
    obtain ⟨text, resolved, same⟩ := except_bind_ok_iff.mp kept
    cases same
    simp [resolveBound, value, eq_resolve_of_expression_ok resolved]
  | wrapper code field =>
    simp only [boundArgument, value] at kept
    cases kept
    simp [resolveBound, value]

/-- The marker of an element that names no component. -/
theorem openElement_plain (plain : ctx.child? head.name = none)
    (opened : ctx.openElement head = .ok marker) :
    marker = {
      component := head.name
      args := head.args.map fun a => ctx.resolve a.value
      attributes := head.chain.map ctx.resolveAttribute
      role := .element
      location := head.location } := by
  unfold openElement at opened
  obtain ⟨attributes, chain, opened⟩ := except_bind_ok_iff.mp opened
  simp only [plain] at opened
  obtain ⟨args, each, same⟩ := except_bind_ok_iff.mp opened
  cases same
  rw [mapM_ok_eq_map (fun _ _ => eq_resolveAttribute_of_chained_ok) chain,
    mapM_ok_eq_map (fun _ _ => eq_resolve_of_expression_ok) each]

/-- The marker of an element that names a component. -/
theorem openElement_child {child : Component} (names : ctx.child? head.name = some child)
    (opened : ctx.openElement head = .ok marker) :
    ∃ bound, (CallSite.mk ctx.component ctx.fields).bind child head.args = .ok bound ∧
      marker = {
        component := head.name
        attributes := head.chain.map ctx.resolveAttribute
        role := .component (bound.map ctx.resolveBound)
        location := head.location } := by
  unfold openElement at opened
  obtain ⟨attributes, chain, opened⟩ := except_bind_ok_iff.mp opened
  simp only [names] at opened
  obtain ⟨bound, binds, opened⟩ := except_bind_ok_iff.mp opened
  obtain ⟨bindings, each, same⟩ := except_bind_ok_iff.mp opened
  cases same
  refine ⟨bound, reporting_ok_iff.mp binds, ?_⟩
  rw [mapM_ok_eq_map (fun _ _ => eq_resolveAttribute_of_chained_ok) chain,
    mapM_ok_eq_map (fun _ _ => eq_resolveBound_of_boundArgument_ok) each]

/-! ## Lowered bodies are linear -/

mutual

theorem Lowers.linear {stmt : Stmt} {out : List Stmt} {s s' : LoweringState} :
    Lowers ctx method stmt s out s' → Stmt.areLinear out = true
  | .element opened body => by simp [Stmt.areLinear, Stmt.isLinear, body.linear]
  | .choice placed each => by simp [conditional, Stmt.areLinear, Stmt.isLinear, each.linear]
  | .forEach head each => by simp [loopBody, Stmt.areLinear, Stmt.isLinear, each.linear]
  | .code _ | .opening | .closing => rfl
  | .branch each => by simp [Stmt.areLinear, Stmt.isLinear, each.linear]
  | .items each => by simp [Stmt.areLinear, Stmt.isLinear, each.linear]

theorem LowersAll.linear {body out : List Stmt} {s s' : LoweringState} :
    LowersAll ctx method body s out s' → Stmt.areLinear out = true
  | .nil => rfl
  | .cons head tail => by simp [head.linear, tail.linear]

theorem LowersArms.linear {site : UInt32} {location : Location} {index : Nat}
    {arms : List (Arm Stmt)} {out : List (BranchArm Stmt)} {s s' : LoweringState} :
    LowersArms ctx method site location index arms s out s' → Stmt.areLinearBranches out = true
  | .nil => rfl
  | .cons kept head tail => by
    simp [Stmt.areLinearBranches, armBody, Stmt.areLinear, Stmt.isLinear, head.linear, tail.linear]

theorem LowersKnown.linear {arms out : List (BranchArm Stmt)} {s s' : LoweringState} :
    LowersKnown ctx method arms s out s' → Stmt.areLinearBranches out = true
  | .nil => rfl
  | .cons head tail => by simp [Stmt.areLinearBranches, head.linear, tail.linear]

end

/-! ## Lowered bodies instantiate the same components -/

/-- Whether a name is a component that the body may instantiate. -/
def isChild (ctx : BodyContext) (name : String) : Bool := (ctx.child? name).isSome

theorem openElement_instances (opened : ctx.openElement head = .ok marker) :
    (Stmt.opening marker).instances ctx.isChild =
      if ctx.isChild head.name then [head.name] else [] := by
  cases names : ctx.child? head.name with
  | none =>
    rw [openElement_plain names opened]
    simp [Stmt.instances, isChild, names]
  | some child =>
    obtain ⟨bound, _, rfl⟩ := openElement_child names opened
    simp [Stmt.instances, isChild, names]

mutual

theorem Lowers.instances {stmt : Stmt} {out : List Stmt} {s s' : LoweringState} :
    Lowers ctx method stmt s out s' →
      Stmt.instancesAll ctx.isChild out = stmt.instances ctx.isChild
  | .element opened body => by
    have start := openElement_instances opened
    simp only [Stmt.instances] at start
    simp [Stmt.instancesAll, Stmt.instances, start, body.instances]
  | .choice placed each => by
    simp [conditional, Stmt.instancesAll, Stmt.instances, each.instances]
  | .forEach head each => by simp [loopBody, Stmt.instancesAll, Stmt.instances, each.instances]
  | .code _ | .opening | .closing => by simp [Stmt.instancesAll, Stmt.instances]
  | .branch each => by simp [Stmt.instancesAll, Stmt.instances, each.instances]
  | .items each => by simp [Stmt.instancesAll, Stmt.instances, each.instances]

theorem LowersAll.instances {body out : List Stmt} {s s' : LoweringState} :
    LowersAll ctx method body s out s' →
      Stmt.instancesAll ctx.isChild out = Stmt.instancesAll ctx.isChild body
  | .nil => rfl
  | .cons head tail => by simp [Stmt.instancesAll, head.instances, tail.instances]

theorem LowersArms.instances {site : UInt32} {location : Location} {index : Nat}
    {arms : List (Arm Stmt)} {out : List (BranchArm Stmt)} {s s' : LoweringState} :
    LowersArms ctx method site location index arms s out s' →
      Stmt.instancesBranchArms ctx.isChild out = Stmt.instancesArms ctx.isChild arms
  | .nil => rfl
  | .cons kept head tail => by
    simp [Stmt.instancesBranchArms, Stmt.instancesArms, armBody, Stmt.instancesAll, Stmt.instances,
      head.instances, tail.instances]

theorem LowersKnown.instances {arms out : List (BranchArm Stmt)} {s s' : LoweringState} :
    LowersKnown ctx method arms s out s' →
      Stmt.instancesBranchArms ctx.isChild out = Stmt.instancesBranchArms ctx.isChild arms
  | .nil => rfl
  | .cons head tail => by simp [Stmt.instancesBranchArms, head.instances, tail.instances]

end

end BodyContext

/-! ## Branches are counted from zero -/

namespace BranchRegistry

/-- Every conditional has its branches counted from zero. -/
def Counted (r : BranchRegistry) : Prop :=
  ∀ entry ∈ r.sites, ∃ arms, entry.branchIds = (List.range arms).map UInt32.ofNat

theorem Counted.register {r : BranchRegistry} (counted : r.Counted) (site : UInt32)
    (method : String) (arms : Nat) (location : Location) :
    (r.register site method arms location).Counted := by
  unfold BranchRegistry.register
  split
  · exact counted
  · intro entry member
    rcases List.mem_append.mp member with old | new
    · exact counted entry old
    · rw [List.mem_singleton] at new
      exact ⟨arms, by rw [new]⟩

theorem Counted.branchId? {r : BranchRegistry} (counted : r.Counted) {site branchId : UInt32}
    {index : Nat} (found : r.branchId? site index = some branchId) :
    branchId = UInt32.ofNat index := by
  unfold BranchRegistry.branchId? BranchRegistry.get? at found
  obtain ⟨entry, first, at'⟩ := Option.bind_eq_some_iff.mp found
  obtain ⟨arms, ids⟩ := counted entry (List.mem_of_find?_eq_some first)
  rw [ids, List.getElem?_map] at at'
  obtain ⟨position, inRange, same⟩ := Option.map_eq_some_iff.mp at'
  rw [List.getElem?_range (by grind)] at inRange
  cases inRange
  exact same.symm

end BranchRegistry

namespace BodyContext

variable {ctx : BodyContext} {method : String}

theorem branch_of_counted {s : LoweringState} (counted : s.registry.Counted) (site : UInt32)
    (index : Nat) : s.branch site index = UInt32.ofNat index := by
  unfold LoweringState.branch
  cases found : s.registry.branchId? site index with
  | none => rfl
  | some branchId => exact counted.branchId? found

mutual

theorem Lowers.counted {stmt : Stmt} {out : List Stmt} {s s' : LoweringState} :
    Lowers ctx method stmt s out s' → s.registry.Counted → s'.registry.Counted
  | .element _ body, counted => body.counted counted
  | .choice _ each, counted => each.counted (counted.register _ _ _ _)
  | .forEach _ each, counted => each.counted counted
  | .code _, counted => counted
  | .opening, counted => counted
  | .closing, counted => counted
  | .branch each, counted => each.counted (counted.register _ _ _ _)
  | .items each, counted => each.counted counted

theorem LowersAll.counted {body out : List Stmt} {s s' : LoweringState} :
    LowersAll ctx method body s out s' → s.registry.Counted → s'.registry.Counted
  | .nil, counted => counted
  | .cons head tail, counted => tail.counted (head.counted counted)

theorem LowersArms.counted {site : UInt32} {location : Location} {index : Nat}
    {arms : List (Arm Stmt)} {out : List (BranchArm Stmt)} {s s' : LoweringState} :
    LowersArms ctx method site location index arms s out s' → s.registry.Counted →
    s'.registry.Counted
  | .nil, counted => counted
  | .cons _ head tail, counted => tail.counted (head.counted counted)

theorem LowersKnown.counted {arms out : List (BranchArm Stmt)} {s s' : LoweringState} :
    LowersKnown ctx method arms s out s' → s.registry.Counted → s'.registry.Counted
  | .nil, counted => counted
  | .cons head tail, counted => tail.counted (head.counted counted)

end

end BodyContext

end ReactiveView
