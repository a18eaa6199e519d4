import Mathlib
import ReactiveView.Proofs.ModuleLowering

/-!
# Lowering twice

A lowered module is a module, and lowering it again changes nothing.  Each part of lowering sees the
lowered form of what it saw before: field tables do not tell whether a component is lowered, the
provider search finds the same components instantiated, and a lowered body goes through the rules
for linear forms, which register the same conditionals in the same order.

Ordinary code is the one thing that is rewritten each time, so the result is relative to code that
comes out of lowering being kept by it.
-/

namespace ReactiveView

open List

/-! ## Ordinary code -/

namespace Stmt

mutual

/-- The ordinary code in a statement. -/
def texts : Stmt → List String
  | .element _ children => textsAll children
  | .choice arms _ => textsArms arms
  | .forEach _ body => textsAll body
  | .code text _ => [text]
  | .opening _ | .closing _ => []
  | .branch _ arms _ => textsBranches arms
  | .items _ _ body => textsAll body

/-- The ordinary code in statements. -/
def textsAll : List Stmt → List String
  | [] => []
  | s :: rest => s.texts ++ textsAll rest

/-- The ordinary code in the arms of a conditional. -/
def textsArms : List (Arm Stmt) → List String
  | [] => []
  | ⟨_, body⟩ :: rest => textsAll body ++ textsArms rest

/-- The ordinary code in the arms of a lowered conditional. -/
def textsBranches : List (BranchArm Stmt) → List String
  | [] => []
  | ⟨_, _, body⟩ :: rest => textsAll body ++ textsBranches rest

end

@[simp] theorem textsAll_append (first second : List Stmt) :
    textsAll (first ++ second) = textsAll first ++ textsAll second := by
  induction first with
  | nil => rfl
  | cons s first ih => simp [textsAll, ih]

end Stmt

/-- The ordinary code in a member. -/
def Member.texts : Member → List String
  | .method m => Stmt.textsAll m.body
  | _ => []

/-- The ordinary code in a component. -/
def Component.texts (c : Component) : List String :=
  Stmt.textsAll c.render.body ++ c.members.flatMap Member.texts

/-! ## Bodies -/

namespace BodyContext

variable {ctx ctx' : BodyContext} {method : String}

theorem LowersAll.append {first second out out' : List Stmt} {s s' s'' : LoweringState} :
    LowersAll ctx method first s out s' → LowersAll ctx method second s' out' s'' →
      LowersAll ctx method (first ++ second) s (out ++ out') s''
  | .nil, tail => tail
  | .cons head rest, tail => by
    rw [append_assoc]
    exact .cons head (rest.append tail)

/-- A statement that is lowered to one statement stays where it is. -/
theorem Lowers.before {stmt out : Stmt} {rest outs : List Stmt} {s s' s'' : LoweringState}
    (head : Lowers ctx method stmt s [out] s') (tail : LowersAll ctx method rest s' outs s'') :
    LowersAll ctx method (stmt :: rest) s (out :: outs) s'' :=
  .cons head tail

/-- Statements between two markers are lowered in their place. -/
theorem LowersAll.marked {body out : List Stmt} {s s' : LoweringState} {m : OpenMarker}
    {m' : CloseMarker} (lowers : LowersAll ctx method body s out s') :
    LowersAll ctx method (.opening m :: body ++ [.closing m']) s
      (.opening m :: out ++ [.closing m']) s' :=
  Lowers.opening.before (lowers.append (Lowers.closing.before .nil))

/-- Whether code is kept as it is. -/
def Keeps (ctx : BodyContext) (text : String) : Prop :=
  ctx.names.statement text ctx.parser = .ok text

theorem LowersArms.length {site : UInt32} {location : Location} {index : Nat}
    {arms : List (Arm Stmt)} {out : List (BranchArm Stmt)} {s s' : LoweringState} :
    LowersArms ctx method site location index arms s out s' → out.length = arms.length := by
  intro lowers
  induction arms generalizing index out s with
  | nil =>
    cases lowers
    rfl
  | cons arm arms ih =>
    cases lowers with
    | cons _ _ tail => rw [length_cons, length_cons, ih tail]

theorem LowersKnown.length {arms out : List (BranchArm Stmt)} {s s' : LoweringState} :
    LowersKnown ctx method arms s out s' → out.length = arms.length := by
  intro lowers
  induction arms generalizing out s with
  | nil =>
    cases lowers
    rfl
  | cons arm arms ih =>
    cases lowers with
    | cons _ tail => rw [length_cons, length_cons, ih tail]

/-- A conditional whose arms are kept is registered as it was and kept. -/
theorem LowersKnown.branch {site : UInt32} {arms : List (BranchArm Stmt)} {location : Location}
    {count : Nat} {before after : BranchRegistry} {t : LoweringState}
    (length : arms.length = count) (same : t.registry = before)
    (each : ∀ u : LoweringState, u.registry = before.register site method count location →
      ∃ u', LowersKnown ctx method arms u arms u' ∧ u'.registry = after) :
    ∃ t', Lowers ctx method (.branch site arms location) t [.branch site arms location] t' ∧
      t'.registry = after := by
  subst length same
  obtain ⟨t', lowers, same⟩ := each (t.afterKnown method site arms.length location) rfl
  exact ⟨t', .branch lowers, same⟩

-- The second lowering starts from a state with the same registry; the next site number may differ,
-- since a lowered conditional brings its own.
mutual

theorem Lowers.again {stmt : Stmt} {out : List Stmt} {s s' : LoweringState} :
    Lowers ctx method stmt s out s' → (∀ text ∈ Stmt.textsAll out, ctx'.Keeps text) →
    ∀ t : LoweringState, t.registry = s.registry →
      ∃ t', LowersAll ctx' method out t out t' ∧ t'.registry = s'.registry
  | .element opened body, kept, t, same => by
    simp only [Stmt.textsAll, Stmt.textsAll_append, Stmt.texts, nil_append, append_nil,
      cons_append] at kept
    obtain ⟨t', lowers, same'⟩ := body.again kept t same
    exact ⟨t', lowers.marked, same'⟩
  | .choice placed each, kept, t, same => by
    simp only [conditional, Stmt.textsAll, Stmt.texts, nil_append, append_nil] at kept
    obtain ⟨t', lowers, same'⟩ := LowersKnown.branch each.length same (each.again kept)
    exact ⟨t', (lowers.before .nil).marked, same'⟩
  | .forEach head each, kept, t, same => by
    simp only [loopBody, Stmt.textsAll, Stmt.texts, nil_append, append_nil] at kept
    obtain ⟨t', lowers, same'⟩ := each.again kept t same
    exact ⟨t', (Lowers.items lowers |>.before .nil).marked, same'⟩
  | .code _, kept, t, same => by
    have fixed := kept _ mem_cons_self
    exact ⟨t, (Lowers.code (reporting_ok_iff.mpr fixed)).before .nil, same⟩
  | .opening, _, t, same => ⟨t, Lowers.opening.before .nil, same⟩
  | .closing, _, t, same => ⟨t, Lowers.closing.before .nil, same⟩
  | .branch each, kept, t, same => by
    simp only [Stmt.textsAll, Stmt.texts, append_nil] at kept
    obtain ⟨t', lowers, same'⟩ := LowersKnown.branch each.length same (each.again kept)
    exact ⟨t', lowers.before .nil, same'⟩
  | .items each, kept, t, same => by
    simp only [Stmt.textsAll, Stmt.texts, append_nil] at kept
    obtain ⟨t', lowers, same'⟩ := each.again kept t same
    exact ⟨t', (Lowers.items lowers).before .nil, same'⟩

theorem LowersAll.again {body out : List Stmt} {s s' : LoweringState} :
    LowersAll ctx method body s out s' → (∀ text ∈ Stmt.textsAll out, ctx'.Keeps text) →
    ∀ t : LoweringState, t.registry = s.registry →
      ∃ t', LowersAll ctx' method out t out t' ∧ t'.registry = s'.registry
  | .nil, _, t, same => ⟨t, .nil, same⟩
  | .cons head tail, kept, t, same => by
    simp only [Stmt.textsAll_append, mem_append] at kept
    obtain ⟨t', lowers, same'⟩ := head.again (fun text member => kept text (.inl member)) t same
    obtain ⟨t'', others, same''⟩ :=
      tail.again (fun text member => kept text (.inr member)) t' same'
    exact ⟨t'', lowers.append others, same''⟩

theorem LowersArms.again {site : UInt32} {location : Location} {index : Nat}
    {arms : List (Arm Stmt)} {out : List (BranchArm Stmt)} {s s' : LoweringState} :
    LowersArms ctx method site location index arms s out s' →
    (∀ text ∈ Stmt.textsBranches out, ctx'.Keeps text) →
    ∀ t : LoweringState, t.registry = s.registry →
      ∃ t', LowersKnown ctx' method out t out t' ∧ t'.registry = s'.registry
  | .nil, _, t, same => ⟨t, .nil, same⟩
  | .cons _ head tail, kept, t, same => by
    simp only [Stmt.textsBranches, armBody, Stmt.textsAll, Stmt.textsAll_append, Stmt.texts,
      mem_append, nil_append, append_nil, cons_append] at kept
    obtain ⟨t', lowers, same'⟩ := head.again (fun text member => kept text (.inl member)) t same
    obtain ⟨t'', others, same''⟩ :=
      tail.again (fun text member => kept text (.inr member)) t' same'
    exact ⟨t'', .cons lowers.marked others, same''⟩

theorem LowersKnown.again {arms out : List (BranchArm Stmt)} {s s' : LoweringState} :
    LowersKnown ctx method arms s out s' →
    (∀ text ∈ Stmt.textsBranches out, ctx'.Keeps text) →
    ∀ t : LoweringState, t.registry = s.registry →
      ∃ t', LowersKnown ctx' method out t out t' ∧ t'.registry = s'.registry
  | .nil, _, t, same => ⟨t, .nil, same⟩
  | .cons head tail, kept, t, same => by
    simp only [Stmt.textsBranches, mem_append] at kept
    obtain ⟨t', lowers, same'⟩ := head.again (fun text member => kept text (.inl member)) t same
    obtain ⟨t'', others, same''⟩ :=
      tail.again (fun text member => kept text (.inr member)) t' same'
    exact ⟨t'', .cons lowers others, same''⟩

end

end BodyContext

/-! ## Members -/

theorem Member.lower_lower {m out : Member} (member : out ∈ m.lower) : out.lower = [out] := by
  cases m with
  | field f =>
    by_cases plain : f.decorator = .none
    · rw [Member.lower, if_pos plain, mem_singleton] at member
      rw [member, Member.lower, if_pos plain]
    · rw [Member.lower, if_neg plain] at member
      rcases mem_cons.mp member with rfl | member
      · rfl
      · rw [mem_singleton.mp member]
        rfl
  | wrapper _ | accessors _ | method _ =>
    rw [mem_singleton.mp member]
    rfl

/-- The components that a member instantiates. -/
def Member.instances (known : String → Bool) : Member → List String
  | .method m => if m.isBuilder then Stmt.instancesAll known m.body else []
  | _ => []

theorem Member.instances_lower (known : String → Bool) (m : Member) :
    m.lower.flatMap (Member.instances known) = m.instances known := by
  cases m with
  | field f => by_cases plain : f.decorator = .none <;> simp [Member.lower, Member.instances, plain]
  | wrapper w => rfl
  | accessors a => rfl
  | method m => exact append_nil _

theorem Component.instances_eq (known : String → Bool) (c : Component) :
    c.instances known =
      (Stmt.instancesAll known c.render.body ++
        c.members.flatMap (Member.instances known)).eraseDups := by
  unfold Component.instances Component.methods
  congr 2
  induction c.members with
  | nil => rfl
  | cons m members ih =>
    rw [flatMap_cons, ← ih, filterMap_cons]
    cases m with
    | method m => by_cases builder : m.isBuilder <;> simp [Member.instances, builder]
    | field _ | wrapper _ | accessors _ => rfl

/-- Undecorated fields pass the check. -/
theorem checkFields_plain {file component : String} {fields : List Field}
    (plain : ∀ f ∈ fields, f.decorator = .none) (provided : List String) :
    checkFields file component provided fields = .ok () := by
  induction fields generalizing provided with
  | nil => rfl
  | cons f fields ih =>
    have first := plain f mem_cons_self
    simp only [checkFields, Field.fault?, first]
    exact ih (fun f member => plain f (mem_cons_of_mem _ member)) _

namespace ModuleScope

variable {scope scope' : ModuleScope} {c c' : Component}

theorem ordinaryBody_kept {ctx : BodyContext} {m : Method}
    (code : ∀ stmt ∈ m.body, ∃ text location, stmt = .code text location)
    (kept : ∀ text ∈ Stmt.textsAll m.body, ctx.Keeps text) : ordinaryBody ctx m = .ok m.body := by
  unfold ordinaryBody
  generalize m.body = body at code kept
  induction body with
  | nil => rfl
  | cons stmt body ih =>
    rw [forall_mem_cons] at code
    obtain ⟨⟨text, location, rfl⟩, code⟩ := code
    simp only [Stmt.textsAll, Stmt.texts, mem_append, mem_singleton] at kept
    have first : ctx.statement location text = .ok text :=
      BodyContext.reporting_ok_iff.mpr (kept text (.inl rfl))
    rw [mapM_cons, ih code fun text member => kept text (.inr member)]
    simp only [first]
    rfl

theorem LowersBody.again {method : String} {body out : List Stmt} {s s' t : LoweringState}
    (lowers : scope.LowersBody c method body s out s')
    (kept : ∀ text ∈ Stmt.textsAll out, (scope'.bodyOf c').Keeps text)
    (same : t.registry = s.registry) :
    ∃ t', scope'.LowersBody c' method out t out t' ∧ t'.registry = s'.registry := by
  obtain ⟨t', lowers', same'⟩ := lowers.lowers.again kept t same
  exact ⟨t', ⟨lowers', lowers.balanced⟩, same'⟩

theorem LowersMember.again {m out : Member} {s s' t : LoweringState}
    (lowers : scope.LowersMember c m s out s')
    (kept : ∀ text ∈ out.texts, (scope'.bodyOf c').Keeps text) (same : t.registry = s.registry) :
    ∃ t', scope'.LowersMember c' out t out t' ∧ t'.registry = s'.registry := by
  cases lowers with
  | builder isBuilder body =>
    obtain ⟨t', lowers, same'⟩ := body.again kept same
    exact ⟨t', .builder isBuilder lowers, same'⟩
  | ordinary isOrdinary body =>
    exact ⟨t, .ordinary isOrdinary (ordinaryBody_kept (code_of_ordinaryBody body) kept), same⟩
  | field => exact ⟨t, .field, same⟩
  | wrapper => exact ⟨t, .wrapper, same⟩
  | accessors => exact ⟨t, .accessors, same⟩

theorem LowersMembers.again {members out : List Member} {s s' t : LoweringState}
    (lowers : scope.LowersMembers c members s out s')
    (kept : ∀ text ∈ out.flatMap Member.texts, (scope'.bodyOf c').Keeps text)
    (same : t.registry = s.registry) :
    ∃ t', scope'.LowersMembers c' out t out t' ∧ t'.registry = s'.registry := by
  induction lowers generalizing t with
  | nil => exact ⟨t, .nil, same⟩
  | cons head tail ih =>
    simp only [flatMap_cons, mem_append] at kept
    obtain ⟨t', lowers, same'⟩ := head.again (fun text member => kept text (.inl member)) same
    obtain ⟨t'', others, same''⟩ := ih (fun text member => kept text (.inr member)) same'
    exact ⟨t'', .cons lowers others, same''⟩

/-- The lowering of bodies changes nothing else in a member. -/
theorem LowersMember.outline {m out : Member} {s s' : LoweringState}
    (lowers : scope.LowersMember c m s out s') :
    out.entry? = m.entry? ∧ (m.lower = [m] → out.lower = [out]) ∧
      out.instances (Component.declares scope.components) =
        m.instances (Component.declares scope.components) := by
  cases lowers with
  | builder isBuilder body =>
    have instances := body.lowers.instances
    rw [funext isChild_bodyOf] at instances
    exact ⟨rfl, fun _ => rfl, by simp [Member.instances, instances]⟩
  | ordinary isOrdinary body => exact ⟨rfl, fun _ => rfl, by simp [Member.instances, isOrdinary]⟩
  | field => exact ⟨rfl, id, rfl⟩
  | wrapper => exact ⟨rfl, id, rfl⟩
  | accessors => exact ⟨rfl, id, rfl⟩

theorem LowersMembers.outline {members out : List Member} {s s' : LoweringState}
    (lowers : scope.LowersMembers c members s out s') :
    out.filterMap Member.entry? = members.filterMap Member.entry? ∧
      ((∀ m ∈ members, m.lower = [m]) → ∀ m ∈ out, m.lower = [m]) ∧
      out.flatMap (Member.instances (Component.declares scope.components)) =
        members.flatMap (Member.instances (Component.declares scope.components)) := by
  induction lowers with
  | nil => exact ⟨rfl, id, rfl⟩
  | cons head tail ih =>
    obtain ⟨entry, lowered, instances⟩ := head.outline
    obtain ⟨entries, others, rest⟩ := ih
    refine ⟨?_, ?_, ?_⟩
    · rw [filterMap_cons, filterMap_cons, entry, entries]
    · rw [forall_mem_cons, forall_mem_cons]
      exact And.imp lowered others
    · rw [flatMap_cons, flatMap_cons, instances, rest]

end ModuleScope

/-! ## Components -/

/-- What the provider search sees of a component. -/
def Component.outline (known : String → Bool) (c : Component) :
    String × Bool × FieldTable × List String :=
  (c.name, c.isEntry, c.fieldTable, c.instances known)

theorem loweredRenderName_loweredRenderName (name : String) (partialUpdate partialUpdate' : Bool) :
    loweredRenderName (loweredRenderName name partialUpdate) partialUpdate' =
      loweredRenderName name partialUpdate := by
  by_cases build : name = buildName
  · cases partialUpdate <;> simp [loweredRenderName, build, initialRenderName, renderName, buildName]
  · simp [loweredRenderName, build]

namespace ModuleScope

variable {scope scope' : ModuleScope} {c : Component} {out : LoweredComponent}

theorem loweredMembers_of_lower {c : Component} (lowered : ∀ m ∈ c.members, m.lower = [m]) :
    c.loweredMembers = c.members := by
  calc c.loweredMembers = c.members.flatMap ([·]) := flatMap_congr lowered
    _ = c.members := flatMap_singleton' c.members

/-- The members of a lowered component are not lowered any further. -/
theorem lower_of_lowerComponent (lowered : scope.lowerComponent c = .ok out) :
    ∀ m ∈ out.decl.members, m.lower = [m] := by
  obtain ⟨_, _, body, members, middle, last, _, methods, rfl⟩ := lowerComponent_ok_iff.mp lowered
  apply methods.outline.2.1
  intro m member
  obtain ⟨_, _, source⟩ := mem_flatMap.mp member
  exact Member.lower_lower source

/-- A component whose members are not lowered any further has no decorated field. -/
theorem plain_of_lower {c : Component} (lowered : ∀ m ∈ c.members, m.lower = [m]) :
    ∀ f ∈ c.fields, f.decorator = .none := by
  intro f member
  obtain ⟨m, source, field⟩ := mem_filterMap.mp member
  cases m with
  | field g =>
    cases field
    -- a decorated field would become a wrapper with its accessors
    by_contra decorated
    have unlowered := lowered _ source
    rw [Member.lower, if_neg decorated] at unlowered
    cases unlowered
  | wrapper _ | accessors _ | method _ => cases field

/-- The provider search sees no difference between a component and what it is lowered to. -/
theorem outline_of_lowerComponent (lowered : scope.lowerComponent c = .ok out) :
    out.decl.outline (Component.declares scope.components) =
      c.outline (Component.declares scope.components) := by
  obtain ⟨_, _, body, members, middle, last, render, methods, rfl⟩ :=
    lowerComponent_ok_iff.mp lowered
  obtain ⟨entries, _, instances⟩ := methods.outline
  have table : (⟨members.filterMap Member.entry?⟩ : FieldTable) = c.fieldTable := by
    rw [entries, c.entries_loweredMembers]
  have render := render.lowers.instances
  rw [funext isChild_bodyOf] at render
  rw [Component.loweredMembers, flatMap_assoc] at instances
  simp only [Member.instances_lower] at instances
  simp only [Component.outline, Component.instances_eq, Component.fieldTable] at table ⊢
  rw [table, render, instances]

/-- Lowering a lowered component again gives the same. -/
theorem lowerComponent_again (lowered : scope.lowerComponent c = .ok out)
    (failures : scope'.failures = scope.failures)
    (kept : ∀ text ∈ out.decl.texts, (scope'.bodyOf out.decl).Keeps text) :
    scope'.lowerComponent out.decl = .ok out := by
  have plain := lower_of_lowerComponent lowered
  have members := loweredMembers_of_lower plain
  have outline := outline_of_lowerComponent lowered
  simp only [Component.outline, Prod.mk.injEq] at outline
  obtain ⟨name, _, table, _⟩ := outline
  obtain ⟨_, resolved, body, methods, middle, last, render, each, same⟩ :=
    lowerComponent_ok_iff.mp lowered
  have renderAgain : scope'.renderName out.decl = scope.renderName c := by
    rw [same]
    exact loweredRenderName_loweredRenderName _ _ _
  refine lowerComponent_ok_iff.mpr ⟨?_, ?_, ?_⟩
  · exact checkFields_plain (plain_of_lower plain) []
  · rw [failures, name, resolved]
  -- the render body is lowered first both times, so the methods start from the same registry
  · rw [members, table, renderAgain]
    subst same
    simp only [Component.texts, mem_append] at kept
    obtain ⟨t, first, same⟩ :=
      render.again (t := {}) (fun text member => kept text (.inl member)) rfl
    obtain ⟨t', second, same'⟩ := each.again (fun text member => kept text (.inr member)) same
    exact ⟨_, _, t, t', first, second, by rw [same']⟩

end ModuleScope

/-! ## The provider search -/

namespace Component

variable {known : String → Bool} {components components' : List Component}
  (same : components'.map (outline known) = components.map (outline known))
include same

theorem names_of_outline : components'.map (·.name) = components.map (·.name) := by
  simpa [map_map, Function.comp_def, outline] using congrArg (List.map (·.1)) same

theorem declares_of_outline (name : String) :
    declares components' name = declares components name := by
  have any (l : List Component) : declares l name = (l.map (·.name)).any (· = name) := by
    simp [declares, any_map, Function.comp_def]
  rw [any, any, names_of_outline same]

theorem find?_of_outline (name : String) :
    (find? components' name).map (outline known) = (find? components name).map (outline known) := by
  have first (l : List Component) :
      (find? l name).map (outline known) = (l.map (outline known)).find? (·.1 = name) := by
    rw [List.find?_map]
    rfl
  rw [first, first, same]

theorem find?_cases_of_outline (name : String) :
    find? components' name = none ∧ find? components name = none ∨
      ∃ c' c, find? components' name = some c' ∧ find? components name = some c ∧
        c'.outline known = c.outline known := by
  have found := find?_of_outline same name
  cases first : find? components name with
  | none =>
    rw [first, Option.map_none, Option.map_eq_none_iff] at found
    exact .inl ⟨found, rfl⟩
  | some c =>
    rw [first, Option.map_some, Option.map_eq_some_iff] at found
    obtain ⟨c', found, outline⟩ := found
    exact .inr ⟨c', c, found, rfl, outline⟩

end Component

namespace Resolution

/-- The components that the component of a name instantiates. -/
def childrenOf (components : List Component) (name : String) : List String :=
  match Component.find? components name with
  | some first => first.instances (Component.declares components)
  | none => []

section

variable {file : String} {components components' : List Component}
  (same : components'.map (Component.outline (Component.declares components)) =
    components.map (Component.outline (Component.declares components)))
include same

theorem visit_of_outline (steps : Nat) (scope : ProviderChain) (path : List String) (name : String)
    (r : Resolution) :
    visit file components' steps scope path name r =
      visit file components steps scope path name r := by
  induction steps generalizing scope path name r with
  | zero => rfl
  | succ steps ih =>
    have known := funext (Component.declares_of_outline same)
    simp only [visit, ih, known]
    rcases Component.find?_cases_of_outline same name with
      ⟨none', none⟩ | ⟨c', c, found', found, outline⟩
    · rw [none', none]
    · simp only [Component.outline, Prod.mk.injEq] at outline
      obtain ⟨names, _, table, instances⟩ := outline
      simp only [found', found, record, names, table, instances]

theorem childrenOf_of_outline (name : String) :
    childrenOf components' name = childrenOf components name := by
  have known := funext (Component.declares_of_outline same)
  unfold childrenOf
  rcases Component.find?_cases_of_outline same name with
    ⟨none', none⟩ | ⟨c', c, found', found, outline⟩
  · rw [none', none]
  · simp only [Component.outline, Prod.mk.injEq] at outline
    simp only [found', found, known, outline.2.2.2]

theorem instantiated_of_outline : instantiated components' = instantiated components := by
  calc instantiated components'
      = (components'.map (·.name)).flatMap (childrenOf components') := by
        rw [flatMap_map]
        rfl
    _ = (components.map (·.name)).flatMap (childrenOf components) := by
        rw [Component.names_of_outline same, funext (childrenOf_of_outline same)]
    _ = instantiated components := by
        rw [flatMap_map]
        rfl

theorem roots_of_outline : roots components' = roots components := by
  have starts (l : List Component) (used : List String) :
      (l.filter fun c => c.isEntry || !used.contains c.name).map (·.name) =
        ((l.map (Component.outline (Component.declares components))).filter fun o =>
          o.2.1 || !used.contains o.1).map (·.1) := by
    rw [filter_map, map_map]
    rfl
  simp only [roots, instantiated_of_outline same, starts, same]

/-- The provider search depends on the outlines of the components only. -/
theorem run_of_outline : run file components' = run file components := by
  have length : components'.length = components.length := by
    simpa using congrArg List.length same
  simp only [run, visitAll, visit_of_outline same, length, roots_of_outline same,
    Component.names_of_outline same]

end

end Resolution

/-! ## Modules -/

namespace ModuleScope

variable {scope scope' : ModuleScope} {components : List Component} {outs : List LoweredComponent}

theorem LowersEach.outlines (each : scope.LowersEach components outs) :
    (outs.map (·.decl)).map (Component.outline (Component.declares scope.components)) =
      components.map (Component.outline (Component.declares scope.components)) := by
  induction each with
  | nil => rfl
  | cons lowered each ih =>
    rw [map_cons, map_cons, map_cons, ih, outline_of_lowerComponent lowered]

theorem LowersEach.again (each : scope.LowersEach components outs)
    (failures : scope'.failures = scope.failures)
    (kept : ∀ l ∈ outs, ∀ text ∈ l.decl.texts, (scope'.bodyOf l.decl).Keeps text) :
    scope'.LowersEach (outs.map (·.decl)) outs := by
  induction each with
  | nil => exact .nil
  | cons lowered each ih =>
    rw [forall_mem_cons] at kept
    exact .cons (lowerComponent_again lowered failures kept.1) (ih kept.2)

theorem file_of (m : Module) {options : Options} (parser : Script.Parser)
    (path : options.filePath = "" ∨ options.filePath = m.filePath) :
    (ModuleScope.of m options parser).file = m.filePath := by
  rcases path with empty | same
  · simp [ModuleScope.of, empty]
  · simp [ModuleScope.of, same]

end ModuleScope

/-- A module that is lowered without errors is not changed by lowering it again, whatever the options,
    as long as the path stays the same and ordinary code that was lowered is kept. -/
theorem Module.lower_toModule {m : Module} {options options' : Options} {parser : Script.Parser}
    (success : (m.lower options parser).isSuccess = true)
    (path : options'.filePath = "" ∨ options'.filePath = (m.lower options parser).filePath)
    (kept : ∀ l ∈ (m.lower options parser).lowered, ∀ text ∈ l.decl.texts,
      ((ModuleScope.of (m.lower options parser).toModule options' parser).bodyOf l.decl).Keeps
        text) :
    (m.lower options parser).toModule.lower options' parser = m.lower options parser := by
  obtain ⟨distinct, outs, each⟩ := Module.isSuccess_lower_iff.mp success
  have first := Module.lower_eq_of_lowersEach distinct each
  have again : (m.lower options parser).toModule =
      ⟨(ModuleScope.of m options parser).file, outs.map (·.decl)⟩ := by
    rw [first, ModuleOutcome.toModule, ModuleOutcome.lowered_outcomes]
  rw [again, first, ModuleOutcome.lowered_outcomes] at kept
  rw [again, first]
  -- the second lowering has the same path, and so the same missing providers
  have file := ModuleScope.file_of ⟨(ModuleScope.of m options parser).file, outs.map (·.decl)⟩
    parser path
  have failures : (ModuleScope.of ⟨(ModuleScope.of m options parser).file, outs.map (·.decl)⟩
      options' parser).failures = (ModuleScope.of m options parser).failures := by
    change consumerFailures (ModuleScope.of ⟨_, outs.map (·.decl)⟩ options' parser).file _ = _
    rw [file, consumerFailures, Resolution.run_of_outline each.outlines]
    rfl
  have names : (outs.map (·.decl)).map (·.name) = m.components.map (·.name) :=
    Component.names_of_outline each.outlines
  rw [Module.lower_eq_of_lowersEach (names ▸ distinct) (each.again failures kept), file]

namespace BadgeModule

open Script (Names Node)

/-- The tree of a body that calls a member of `this`. -/
def callTree (name : String) (stop : Nat) : Node :=
  .mk .other [.mk .other [.mk .other [.mk .call [.mk (.member name 33 stop) [.mk .this []]]]]]

set_option maxRecDepth 8000 in
theorem statements?_count :
    Script.statements? (Names.bodyStart ++ "this.$count()".toList ++ Names.bodyEnd) =
      some (callTree "$count" 39) := by cbv

set_option maxRecDepth 8000 in
theorem statements?_backing :
    Script.statements? (Names.bodyStart ++ "this.count__()".toList ++ Names.bodyEnd) =
      some (callTree "count__" 40) := by cbv

theorem statement_count {names : Names} (wrapped : names.wrapped "count" = true) :
    names.statement "this.$count()" = .ok "this.count__()" := by
  have read : Script.parser.statements? _ = _ := statements?_count
  have members : (callTree "$count" 39).thisMembers = [⟨"$count", 33, 39⟩] := rfl
  have found : names.replacement? ⟨"$count", 33, 39⟩ = some ⟨33, 39, "count__".toList⟩ :=
    if_pos wrapped
  rw [Names.statement, if_pos (by decide), read]
  simp only [Names.substitute, members, filterMap_cons, found, filterMap_nil, Script.splice,
    mergeSort_singleton]
  rfl

theorem statement_backing (names : Names) :
    names.statement "this.count__()" = .ok "this.count__()" := by
  have read : Script.parser.statements? _ = _ := statements?_backing
  have members : (callTree "count__" 40).thisMembers = [⟨"count__", 33, 40⟩] := rfl
  have found : names.replacement? ⟨"count__", 33, 40⟩ = none := rfl
  rw [Names.statement, if_pos (by decide), read]
  simp only [Names.substitute, members, filterMap_cons, found, filterMap_nil, Script.splice,
    mergeSort_nil]
  rfl

end BadgeModule

/-- A page that shows a badge for a counter, and the badge, which is tied to the counter. -/
def badgeModule : Module where
  filePath := "page.ets"
  components := [
    { name := "Page"
      isEntry := true
      members := [.field { name := "count", decorator := .state, initializer := some "0" }]
      render := { body := [
        .choice [⟨some "this.count", [
          .element { name := "Badge", args := [{ name := some "value", value := "$count" }] } []]⟩] {},
        .code "this.$count()" {}] } },
    { name := "Badge"
      members := [.field { name := "value", decorator := .link }]
      render := { body := [.element { name := "Text", args := [{ value := "this.value" }] } []] } }]

theorem Module.lower_toModule_badgeModule :
    (badgeModule.lower {}).isSuccess = true ∧
      (badgeModule.lower {}).toModule.lower { partialUpdateMode := false } = badgeModule.lower {} := by
  have each : (ModuleScope.of badgeModule {}).LowersEach badgeModule.components _ :=
    .cons
      (ModuleScope.lowerComponent_ok_iff.mpr ⟨rfl, rfl, _, _, _, _,
        ⟨.cons (.choice rfl (.cons rfl (.cons (.element rfl .nil) .nil) .nil))
          (.cons (.code (BodyContext.reporting_ok_iff.mpr (BadgeModule.statement_count rfl))) .nil),
          rfl⟩,
        .cons .wrapper (.cons .accessors .nil), rfl⟩)
      (.cons
        (ModuleScope.lowerComponent_ok_iff.mpr ⟨rfl, rfl, _, _, _, _,
          ⟨.cons (.element rfl .nil) .nil, rfl⟩,
          .cons .wrapper (.cons .accessors .nil), rfl⟩)
        .nil)
  have distinct : (badgeModule.components.map (·.name)).Nodup := by decide
  have success := Module.isSuccess_lower_iff.mpr ⟨distinct, _, each⟩
  refine ⟨success, Module.lower_toModule success (.inl rfl) ?_⟩
  rw [Module.lower_eq_of_lowersEach distinct each, ModuleOutcome.lowered_outcomes,
    forall_mem_cons, forall_mem_singleton]
  constructor
  · intro text code
    rw [show text = "this.count__()" from mem_singleton.mp code]
    exact BadgeModule.statement_backing _
  · intro text code
    cases code

end ReactiveView
