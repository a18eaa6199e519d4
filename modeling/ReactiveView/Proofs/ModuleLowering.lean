import Mathlib.Data.List.Basic
import ReactiveView.Lowering.Module
import ReactiveView.Proofs.BodyForms

/-!
# Rules of the lowering of components

What a successful lowering of a component does: its fields pass the check, all its consumers have
providers, and its bodies are lowered by the rules for bodies, the render body first and then the
methods in order.  As for bodies, the rules are exact (`ModuleScope.lowerComponent_ok_iff`).
-/

namespace ReactiveView

open List

/-! ## Fields -/

/-- A member and what it is lowered to have the same entries in a field table. -/
theorem Member.entries_lower (m : Member) : m.lower.filterMap Member.entry? = m.entry?.toList := by
  cases m with
  | field f =>
    by_cases plain : f.decorator = .none
    · simp [Member.lower, Member.entry?, plain]
    · simp [Member.lower, Member.entry?, plain, Field.wrapper]
  | wrapper w => rfl
  | accessors a => rfl
  | method m => rfl

/-- The entry of a wrapper. -/
def Wrapper.row (w : Wrapper) : FieldRow where
  name := w.sourceField
  binding := w.binding
  reactive := true
  hasInitializer := w.initializer.isSome
  location := w.location

/-- A member is lowered to a wrapper if and only if its entry is reactive. -/
theorem Member.wrapperRows_lower (m : Member) :
    (m.lower.filterMap Member.wrapper?).map Wrapper.row = m.entry?.toList.filter (·.reactive) := by
  cases m with
  | field f =>
    by_cases plain : f.decorator = .none
    · simp [Member.lower, Member.entry?, Member.wrapper?, plain]
    · simp [Member.lower, Member.entry?, Member.wrapper?, plain, Field.wrapper, Wrapper.row]
  | wrapper w => rfl
  | accessors a => rfl
  | method m => rfl

/-- A field that is not reactive provides nothing. -/
theorem Member.reactive_of_provides {m : Member} {row : FieldRow} {key : String}
    (entry : m.entry? = some row) (provides : row.binding.key? .provider = some key) :
    row.reactive = true := by
  cases m with
  | field f =>
    cases entry
    by_cases plain : f.decorator = .none
    · simp [Field.binding, plain, BindingKind.key?] at provides
    · simp [plain]
  | wrapper w =>
    cases entry
    rfl
  | accessors a => cases entry
  | method m => cases entry

namespace Component

/-- The members of a component after its fields are lowered. -/
def loweredMembers (c : Component) : List Member := c.members.flatMap Member.lower

theorem mem_methods_of_mem_loweredMembers {c : Component} {m : Method}
    (member : Member.method m ∈ c.loweredMembers) : m ∈ c.methods := by
  obtain ⟨source, declared, lowered⟩ := mem_flatMap.mp member
  have same : source = .method m := by
    cases source with
    | field f => by_cases plain : f.decorator = .none <;> simp [Member.lower, plain] at lowered
    | wrapper _ | accessors _ => simp [Member.lower] at lowered
    | method _ => simpa [Member.lower, eq_comm] using lowered
  exact mem_filterMap.mpr ⟨_, declared, by rw [same]⟩

theorem entries_loweredMembers (c : Component) :
    c.loweredMembers.filterMap Member.entry? = c.fieldTable.entries := by
  simp only [loweredMembers, fieldTable, filterMap_flatMap, Member.entries_lower]
  rw [filterMap_eq_flatMap_toList]

theorem wrapperRows_loweredMembers (c : Component) :
    (c.loweredMembers.filterMap Member.wrapper?).map Wrapper.row =
      c.fieldTable.entries.filter (·.reactive) := by
  simp only [loweredMembers, fieldTable, filterMap_flatMap, map_flatMap,
    Member.wrapperRows_lower]
  rw [filterMap_eq_flatMap_toList, filter_flatMap]

theorem wrapped_loweredMembers (c : Component) :
    (c.loweredMembers.filterMap Member.wrapper?).map (·.sourceField) =
      c.fieldTable.reactiveNames := by
  rw [FieldTable.reactiveNames, ← wrapperRows_loweredMembers, map_map]
  rfl

theorem provided_loweredMembers (c : Component) :
    (c.loweredMembers.filterMap Member.wrapper?).filterMap (·.binding.key? .provider) =
      c.fieldTable.providedKeys := by
  have rows : (c.loweredMembers.filterMap Member.wrapper?).filterMap (·.binding.key? .provider) =
      (c.fieldTable.entries.filter (·.reactive)).filterMap (·.binding.key? .provider) := by
    rw [← wrapperRows_loweredMembers, filterMap_map]
    rfl
  rw [rows, FieldTable.providedKeys, filterMap_filter]
  -- only reactive fields provide a key, so the filter drops nothing
  apply filterMap_congr
  intro row member
  obtain ⟨m, _, entry⟩ := mem_filterMap.mp member
  cases provides : row.binding.key? .provider with
  | none => simp
  | some key => rw [if_pos (Member.reactive_of_provides entry provides)]

/-- The keys that a component provides and the names of its reactive fields are those of its field
    table. -/
theorem lowerFields_ok_iff {c : Component} {file : String} {fields : FieldLowering} :
    c.lowerFields file = .ok fields ↔
      c.checkFields file = .ok () ∧
        fields = ⟨c.loweredMembers, c.fieldTable.providedKeys, c.fieldTable.reactiveNames⟩ := by
  unfold lowerFields
  rw [except_bind_ok_iff]
  rw [← wrapped_loweredMembers, ← provided_loweredMembers]
  constructor
  · rintro ⟨_, checked, same⟩
    cases same
    exact ⟨checked, rfl⟩
  · rintro ⟨checked, rfl⟩
    exact ⟨(), checked, rfl⟩

end Component

/-! ## Bodies and members -/

namespace ModuleScope

variable {scope : ModuleScope} {c : Component} {s s' : LoweringState}

/-- The context for the bodies of a component with its reactive fields. -/
def bodyOf (scope : ModuleScope) (c : Component) : BodyContext :=
  scope.body c c.fieldTable.reactiveNames

theorem isChild_bodyOf (name : String) :
    (scope.bodyOf c).isChild name = Component.declares scope.components name := by
  simp [BodyContext.isChild, bodyOf, body, Component.find?, Component.declares,
    isSome_find?]

/-- A body of a component is lowered, and what comes out is bracketed. -/
structure LowersBody (scope : ModuleScope) (c : Component) (method : String) (body : List Stmt)
    (s : LoweringState) (out : List Stmt) (s' : LoweringState) : Prop where
  lowers : BodyContext.LowersAll (scope.bodyOf c) method body s out s'
  balanced : (Balance.body out).faults = []

/-- A member is lowered. -/
inductive LowersMember (scope : ModuleScope) (c : Component) :
    Member → LoweringState → Member → LoweringState → Prop
  | builder {m : Method} {out : List Stmt} {s s' : LoweringState} (isBuilder : m.isBuilder = true)
      (body : LowersBody scope c m.name m.body s out s') :
      LowersMember scope c (.method m) s (.method { m with body := out }) s'
  | ordinary {m : Method} {out : List Stmt} {s : LoweringState} (isOrdinary : m.isBuilder = false)
      (body : ordinaryBody (scope.bodyOf c) m = .ok out) :
      LowersMember scope c (.method m) s (.method { m with body := out }) s
  | field {f : Field} {s : LoweringState} : LowersMember scope c (.field f) s (.field f) s
  | wrapper {w : Wrapper} {s : LoweringState} : LowersMember scope c (.wrapper w) s (.wrapper w) s
  | accessors {a : Accessors} {s : LoweringState} :
      LowersMember scope c (.accessors a) s (.accessors a) s

/-- Members are lowered one after the other. -/
inductive LowersMembers (scope : ModuleScope) (c : Component) :
    List Member → LoweringState → List Member → LoweringState → Prop
  | nil {s : LoweringState} : LowersMembers scope c [] s [] s
  | cons {m out : Member} {rest outs : List Member} {s s' s'' : LoweringState}
      (head : LowersMember scope c m s out s') (tail : LowersMembers scope c rest s' outs s'') :
      LowersMembers scope c (m :: rest) s (out :: outs) s''

theorem code_of_ordinaryBody {ctx : BodyContext} {m : Method} {out : List Stmt}
    (ran : ordinaryBody ctx m = .ok out) :
    ∀ stmt ∈ out, ∃ text location, stmt = .code text location := by
  unfold ordinaryBody at ran
  generalize m.body = body at ran
  induction body generalizing out with
  | nil =>
    cases ran
    exact fun _ member => absurd member not_mem_nil
  | cons stmt body ih =>
    rw [mapM_cons] at ran
    obtain ⟨first, head, ran⟩ := except_bind_ok_iff.mp ran
    obtain ⟨rest, tail, same⟩ := except_bind_ok_iff.mp ran
    cases same
    rw [forall_mem_cons]
    refine ⟨?_, ih tail⟩
    split at head
    next text location =>
      obtain ⟨text', _, same⟩ := except_bind_ok_iff.mp head
      cases same
      exact ⟨text', location, rfl⟩
    next => cases head

theorem checkBalance_ok_iff {body : List Stmt} :
    scope.checkBalance c body = .ok () ↔ (Balance.body body).faults = [] := by
  unfold checkBalance Balance.check
  cases (Balance.body body).faults <;> simp

theorem lowerBody_ok_iff {method : String} {body out : List Stmt} :
    (scope.lowerBody c c.fieldTable.reactiveNames method body).run.run s = (.ok out, s') ↔
      scope.LowersBody c method body s out s' := by
  simp only [lowerBody, LowerM.bind_ok_iff, BodyContext.lower_ok_iff, LowerM.lift_ok_iff,
    LowerM.pure_ok_iff]
  constructor
  · rintro ⟨_, _, lowers, _, _, ⟨checked, rfl⟩, rfl, rfl⟩
    exact ⟨lowers, checkBalance_ok_iff.mp checked⟩
  · rintro ⟨lowers, balanced⟩
    exact ⟨out, s', lowers, (), s', ⟨checkBalance_ok_iff.mpr balanced, rfl⟩, rfl, rfl⟩

theorem lowerMember_ok_iff {m out : Member} :
    (scope.lowerMember c c.fieldTable.reactiveNames m).run.run s = (.ok out, s') ↔
      scope.LowersMember c m s out s' := by
  cases m with
  | method m =>
    by_cases builder : m.isBuilder
    · simp only [lowerMember, if_pos builder, LowerM.bind_ok_iff, lowerBody_ok_iff,
        LowerM.pure_ok_iff]
      constructor
      · rintro ⟨body, _, lowers, rfl, rfl⟩
        exact .builder builder lowers
      · intro lowers
        cases lowers with
        | builder _ lowers => exact ⟨_, _, lowers, rfl, rfl⟩
        | ordinary isOrdinary _ => simp [builder] at isOrdinary
    · simp only [lowerMember, if_neg builder, LowerM.bind_ok_iff, LowerM.lift_ok_iff,
        LowerM.pure_ok_iff]
      constructor
      · rintro ⟨body, _, ⟨lowers, rfl⟩, rfl, rfl⟩
        exact .ordinary (by simpa using builder) lowers
      · intro lowers
        cases lowers with
        | builder isBuilder _ => exact absurd isBuilder builder
        | ordinary _ lowers => exact ⟨_, _, ⟨lowers, rfl⟩, rfl, rfl⟩
  | field _ | wrapper _ | accessors _ =>
    simp only [lowerMember, LowerM.pure_ok_iff]
    constructor
    · rintro ⟨rfl, rfl⟩
      constructor
    · intro lowers
      cases lowers
      exact ⟨rfl, rfl⟩

theorem lowerMembers_ok_iff {members out : List Member} :
    (members.mapM (scope.lowerMember c c.fieldTable.reactiveNames)).run.run s = (.ok out, s') ↔
      scope.LowersMembers c members s out s' := by
  induction members generalizing s s' out with
  | nil =>
    simp only [mapM_nil, LowerM.pure_ok_iff]
    constructor
    · rintro ⟨rfl, rfl⟩
      exact .nil
    · intro lowers
      cases lowers
      exact ⟨rfl, rfl⟩
  | cons m members ih =>
    simp only [mapM_cons, LowerM.bind_ok_iff, LowerM.pure_ok_iff, lowerMember_ok_iff, ih]
    constructor
    · rintro ⟨_, _, head, _, _, tail, rfl, rfl⟩
      exact .cons head tail
    · intro lowers
      cases lowers with
      | cons head tail => exact ⟨_, _, head, _, _, tail, rfl, rfl⟩

/-! ## Components -/

/-- The name of the render method of a component after lowering. -/
def renderName (scope : ModuleScope) (c : Component) : String :=
  loweredRenderName c.render.name scope.partialUpdate

theorem lowerBodies_ok_iff {decl : Component} :
    (scope.lowerBodies c
        ⟨c.loweredMembers, c.fieldTable.providedKeys, c.fieldTable.reactiveNames⟩).run.run s =
        (.ok decl, s') ↔
      ∃ body members middle,
        scope.LowersBody c (scope.renderName c) c.render.body s body middle ∧
        scope.LowersMembers c c.loweredMembers middle members s' ∧
        decl = { c with members, render := ⟨scope.renderName c, body⟩ } := by
  simp only [lowerBodies, LowerM.bind_ok_iff, lowerBody_ok_iff, lowerMembers_ok_iff,
    LowerM.pure_ok_iff]
  constructor
  · rintro ⟨body, middle, render, members, _, methods, rfl, rfl⟩
    exact ⟨body, members, middle, render, methods, rfl⟩
  · rintro ⟨body, members, middle, render, methods, rfl⟩
    exact ⟨body, middle, render, members, s', methods, rfl, rfl⟩

theorem lowerComponent_ok_iff {out : LoweredComponent} :
    scope.lowerComponent c = .ok out ↔
      c.checkFields scope.file = .ok () ∧ scope.failures.lookup c.name = none ∧
        ∃ body members middle last,
          scope.LowersBody c (scope.renderName c) c.render.body {} body middle ∧
          scope.LowersMembers c c.loweredMembers middle members last ∧
          out = ⟨{ c with members, render := ⟨scope.renderName c, body⟩ }, last.registry,
            c.fieldTable.providedKeys⟩ := by
  simp only [lowerComponent, except_bind_ok_iff, Component.lowerFields_ok_iff]
  cases failure : scope.failures.lookup c.name with
  | some d =>
    constructor
    · rintro ⟨_, _, failed⟩
      cases failed
    · rintro ⟨_, resolved, _⟩
      cases resolved
  | none =>
    constructor
    · rintro ⟨_, ⟨checked, rfl⟩, ran⟩
      obtain ⟨decl, bodies, same⟩ := except_bind_ok_iff.mp ran
      obtain ⟨body, members, middle, render, methods, rfl⟩ :=
        lowerBodies_ok_iff.mp (Prod.ext bodies rfl)
      cases same
      exact ⟨checked, rfl, body, members, middle, _, render, methods, rfl⟩
    · rintro ⟨checked, _, body, members, middle, last, render, methods, rfl⟩
      have bodies := lowerBodies_ok_iff.mpr ⟨body, members, middle, render, methods, rfl⟩
      refine ⟨_, ⟨checked, rfl⟩, ?_⟩
      rw [bodies]
      rfl

theorem name_of_lowerComponent {out : LoweredComponent}
    (lowered : scope.lowerComponent c = .ok out) : out.decl.name = c.name := by
  obtain ⟨_, _, _, _, _, _, _, _, rfl⟩ := lowerComponent_ok_iff.mp lowered
  rfl

/-! ## Modules without errors -/

/-- Components are lowered without errors. -/
abbrev LowersEach (scope : ModuleScope) : List Component → List LoweredComponent → Prop :=
  List.Forall₂ fun c out => scope.lowerComponent c = .ok out

end ModuleScope

/-- The outcome for a component that was lowered. -/
def LoweredComponent.outcome (out : LoweredComponent) : Outcome := ⟨out.decl.name, .ok out⟩

namespace ModuleScope

variable {scope : ModuleScope} {seen : List String} {components : List Component}
  {outs : List LoweredComponent}

theorem lowerAll_of_lowersEach (each : scope.LowersEach components outs)
    (distinct : (components.map (·.name)).Nodup) (fresh : ∀ c ∈ components, c.name ∉ seen) :
    scope.lowerAll seen components = outs.map (·.outcome) := by
  induction each generalizing seen with
  | nil => rfl
  | @cons c out components outs lowered each ih =>
    rw [map_cons, nodup_cons] at distinct
    rw [forall_mem_cons] at fresh
    have others : ∀ c' ∈ components, c'.name ∉ c.name :: seen := by
      intro c' member again
      rcases mem_cons.mp again with same | old
      · exact distinct.1 (same ▸ mem_map_of_mem member)
      · exact fresh.2 c' member old
    have first : ¬ seen.contains c.name := by simpa using fresh.1
    rw [lowerAll, if_neg first, ih distinct.2 others, lowered, map_cons,
      LoweredComponent.outcome, name_of_lowerComponent lowered]

theorem lowersEach_of_lowerAll
    (success : ∀ o ∈ scope.lowerAll seen components, ∃ out, o.result = .ok out) :
    (∃ outs, scope.LowersEach components outs) ∧ (components.map (·.name)).Nodup ∧
      ∀ c ∈ components, c.name ∉ seen := by
  induction components generalizing seen with
  | nil => exact ⟨⟨[], .nil⟩, nodup_nil, fun _ member => absurd member not_mem_nil⟩
  | cons c components ih =>
    rw [lowerAll, forall_mem_cons] at success
    obtain ⟨⟨out, lowered⟩, others⟩ := success
    obtain ⟨⟨outs, each⟩, distinct, fresh⟩ := ih others
    -- a name that was seen before is an error
    by_cases known : seen.contains c.name
    · rw [if_pos known] at lowered
      cases lowered
    · rw [if_neg known] at lowered
      refine ⟨⟨out :: outs, .cons lowered each⟩, ?_, ?_⟩
      · rw [map_cons, nodup_cons]
        refine ⟨fun again => ?_, distinct⟩
        obtain ⟨c', member, same⟩ := mem_map.mp again
        exact fresh c' member (same ▸ mem_cons_self)
      · rw [forall_mem_cons]
        exact ⟨by simpa using known, fun c' member old => fresh c' member (.tail _ old)⟩

theorem exists_of_mem_lowerAll {o : Outcome} {out : LoweredComponent}
    (member : o ∈ scope.lowerAll seen components) (isOk : o.result = .ok out) :
    ∃ c ∈ components, scope.lowerComponent c = .ok out := by
  induction components generalizing seen with
  | nil => cases member
  | cons c components ih =>
    rw [lowerAll] at member
    rcases mem_cons.mp member with rfl | later
    · dsimp only at isOk
      split at isOk
      · cases isOk
      · exact ⟨c, mem_cons_self, isOk⟩
    · obtain ⟨c', declared, lowered⟩ := ih later
      exact ⟨c', .tail _ declared, lowered⟩

end ModuleScope

theorem Module.lower_eq_of_lowersEach {m : Module} {options : Options} {parser : Script.Parser}
    {outs : List LoweredComponent} (distinct : (m.components.map (·.name)).Nodup)
    (each : (ModuleScope.of m options parser).LowersEach m.components outs) :
    m.lower options parser = ⟨(ModuleScope.of m options parser).file, outs.map (·.outcome)⟩ := by
  rw [Module.lower, ModuleScope.lowerAll_of_lowersEach each distinct (by simp)]

/-- A module is lowered without errors if and only if its components have different names and each
    of them is lowered. -/
theorem Module.isSuccess_lower_iff {m : Module} {options : Options} {parser : Script.Parser} :
    (m.lower options parser).isSuccess = true ↔
      (m.components.map (·.name)).Nodup ∧
        ∃ outs, (ModuleScope.of m options parser).LowersEach m.components outs := by
  constructor
  · intro success
    have each : ∀ o ∈ (ModuleScope.of m options parser).lowerAll [] m.components,
        ∃ out, o.result = .ok out := by
      intro o member
      rw [ModuleOutcome.isSuccess, List.isEmpty_iff, ModuleOutcome.errors,
        filterMap_eq_nil_iff] at success
      have none := success o member
      cases result : o.result with
      | ok out => exact ⟨out, rfl⟩
      | error d =>
        rw [result] at none
        cases none
    obtain ⟨lowered, distinct, _⟩ := ModuleScope.lowersEach_of_lowerAll each
    exact ⟨distinct, lowered⟩
  · rintro ⟨distinct, outs, each⟩
    rw [Module.lower_eq_of_lowersEach distinct each]
    simp [ModuleOutcome.isSuccess, ModuleOutcome.errors, LoweredComponent.outcome]

theorem ModuleOutcome.lowered_outcomes (file : String) (outs : List LoweredComponent) :
    (ModuleOutcome.mk file (outs.map (·.outcome))).lowered = outs := by
  simp [ModuleOutcome.lowered, filterMap_map, LoweredComponent.outcome,
    Except.toOption]

/-- A component that was lowered comes from a component of the module. -/
theorem Module.exists_of_mem_lowered {m : Module} {options : Options} {parser : Script.Parser}
    {out : LoweredComponent} (member : out ∈ (m.lower options parser).lowered) :
    ∃ c ∈ m.components, (ModuleScope.of m options parser).lowerComponent c = .ok out := by
  obtain ⟨o, isOutcome, ok⟩ := mem_filterMap.mp member
  cases result : o.result with
  | ok out' =>
    rw [result] at ok
    cases ok
    exact ModuleScope.exists_of_mem_lowerAll isOutcome result
  | error fault =>
    rw [result] at ok
    cases ok

end ReactiveView
