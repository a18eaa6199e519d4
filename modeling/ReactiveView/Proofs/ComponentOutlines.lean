import ReactiveView.Proofs.Relowering

/-!
# Declarations seen from outside

A call site sees the name and the field table of the component that it instantiates, its
`Component.face`; the provider search sees the `Component.outline`.  This module shows that nothing
else of a declaration is ever looked at while another one is lowered: scopes in which every name has
the same face lower a component to the same (`ModuleScope.Resembles.lowerComponent`), and modules
with the same outlines have such scopes (`ModuleScope.resembles_of_outlines`).

Neither face nor outline tells whether a declaration is lowered.  For fields this is a matter of one
member at a time, but the components that a body instantiates are read off the names of nested
elements before lowering and off the roles of markers after it.  So wherever a module's declarations
are looked at, any of them may be replaced by what it is lowered to.
-/

namespace ReactiveView

theorem Component.declares_eq_isSome_find? (components : List Component) (name : String) :
    declares components name = (find? components name).isSome := by
  simp [declares, find?, List.isSome_find?]

/-- What a call site sees of a component. -/
def Component.face (c : Component) : String × FieldTable := (c.name, c.fieldTable)

theorem Component.face_of_outline {known : String → Bool} {c c' : Component}
    (same : c'.outline known = c.outline known) : c'.face = c.face := by
  simp only [Component.outline, Prod.mk.injEq] at same
  simp only [Component.face, same]

theorem CallSite.bind_of_face {child child' : Component} (same : child'.face = child.face)
    (site : CallSite) (args : List Argument) : site.bind child' args = site.bind child args := by
  obtain ⟨name, table⟩ := Prod.mk.inj same
  simp only [CallSite.bind, name, table]

/-! ## Bodies -/

namespace BodyContext

/-- Names stand for components with the same faces. -/
def SameFaces (children children' : String → Option Component) : Prop :=
  ∀ name, (children' name).map Component.face = (children name).map Component.face

variable {ctx : BodyContext} {children : String → Option Component} {method : String}

theorem openElement_of_faces (same : SameFaces ctx.child? children) (head : Element) :
    { ctx with child? := children }.openElement head = ctx.openElement head := by
  have face := same head.name
  unfold openElement
  cases known : ctx.child? head.name with
  | none =>
    rw [known, Option.map_none, Option.map_eq_none_iff] at face
    simp only [face]
    rfl
  | some child =>
    rw [known, Option.map_some, Option.map_eq_some_iff] at face
    obtain ⟨child', found, face⟩ := face
    simp only [found, CallSite.bind_of_face face]
    rfl

-- Only the start of an element looks a name up.  Everything else in a body is the same to begin
-- with, so each case hands the equality on from the parts.
mutual

theorem lowerStmt_of_faces (same : SameFaces ctx.child? children) : ∀ stmt : Stmt,
    { ctx with child? := children }.lowerStmt method stmt = ctx.lowerStmt method stmt
  | .element head body => by
    have opened := openElement_of_faces same head
    have inner := lowerStmts_of_faces same body
    simp only [lowerStmt, opened, inner]
  | .choice arms location => by
    have inner := lowerChoiceArms_of_faces same arms
    simp only [lowerStmt, inner]
    rfl
  | .forEach loop body => by
    have inner := lowerStmts_of_faces same body
    simp only [lowerStmt, inner]
    rfl
  | .code text location => rfl
  | .opening marker => rfl
  | .closing marker => rfl
  | .branch site arms location => by
    have inner := lowerKnownArms_of_faces same arms
    simp only [lowerStmt, inner]
  | .items params keyGenerator body => by
    have inner := lowerStmts_of_faces same body
    simp only [lowerStmt, inner]

theorem lowerStmts_of_faces (same : SameFaces ctx.child? children) : ∀ body : List Stmt,
    { ctx with child? := children }.lowerStmts method body = ctx.lowerStmts method body
  | [] => rfl
  | stmt :: body => by
    have head := lowerStmt_of_faces same stmt
    have tail := lowerStmts_of_faces same body
    simp only [lowerStmts, head, tail]

theorem lowerChoiceArms_of_faces (same : SameFaces ctx.child? children) :
    ∀ (arms : List (Arm Stmt)) (site : UInt32) (location : Location) (index : Nat),
      { ctx with child? := children }.lowerChoiceArms method site location index arms =
        ctx.lowerChoiceArms method site location index arms
  | [], _, _, _ => rfl
  | ⟨condition, body⟩ :: arms, site, location, index => by
    have head := lowerStmts_of_faces same body
    have tail := lowerChoiceArms_of_faces same arms
    simp only [lowerChoiceArms, head, tail]
    rfl

theorem lowerKnownArms_of_faces (same : SameFaces ctx.child? children) :
    ∀ arms : List (BranchArm Stmt),
      { ctx with child? := children }.lowerKnownArms method arms = ctx.lowerKnownArms method arms
  | [] => rfl
  | ⟨condition, branchId, body⟩ :: arms => by
    have head := lowerStmts_of_faces same body
    have tail := lowerKnownArms_of_faces same arms
    simp only [lowerKnownArms, head, tail]

end

end BodyContext

/-! ## Components -/

namespace ModuleScope

theorem lowerComponent_of_fault {scope : ModuleScope} {c : Component} {d : Diagnostic}
    (fault : c.lowerFields scope.file = .error d) : scope.lowerComponent c = .error d := by
  rw [lowerComponent, fault]
  rfl

theorem lowerComponent_of_missing {scope : ModuleScope} {c : Component} {fields : FieldLowering}
    {d : Diagnostic} (lowered : c.lowerFields scope.file = .ok fields)
    (missing : scope.failures.lookup c.name = some d) : scope.lowerComponent c = .error d := by
  rw [lowerComponent, lowered, missing]
  rfl

/-- Two scopes differ at most in the missing providers and in what no face shows. -/
structure Resembles (scope scope' : ModuleScope) : Prop where
  file : scope'.file = scope.file
  partialUpdate : scope'.partialUpdate = scope.partialUpdate
  parser : scope'.parser = scope.parser
  faces : BodyContext.SameFaces (Component.find? scope.components)
    (Component.find? scope'.components)

namespace Resembles

variable {scope scope' : ModuleScope} (same : scope.Resembles scope') (c : Component)

include same

theorem declares :
    Component.declares scope'.components = Component.declares scope.components := by
  funext name
  have known := congrArg Option.isSome (same.faces name)
  rw [Option.isSome_map, Option.isSome_map] at known
  rw [Component.declares_eq_isSome_find?, Component.declares_eq_isSome_find?, known]

theorem body (wrapped : List String) :
    scope'.body c wrapped =
      { scope.body c wrapped with child? := Component.find? scope'.components } := by
  simp only [ModuleScope.body, same.file, same.declares, same.parser]

theorem lowerBody (wrapped : List String) (method : String) (body : List Stmt) :
    scope'.lowerBody c wrapped method body = scope.lowerBody c wrapped method body := by
  have lowered :
      (scope'.body c wrapped).lower method body = (scope.body c wrapped).lower method body := by
    rw [BodyContext.lower_eq_lowerStmts, BodyContext.lower_eq_lowerStmts, same.body]
    exact BodyContext.lowerStmts_of_faces same.faces body
  simp only [ModuleScope.lowerBody, lowered, checkBalance, same.file]

theorem lowerMember (wrapped : List String) (m : Member) :
    scope'.lowerMember c wrapped m = scope.lowerMember c wrapped m := by
  cases m with
  | method m =>
    -- ordinary code is looked at without looking any component up
    have ordinary :
        ordinaryBody (scope'.body c wrapped) m = ordinaryBody (scope.body c wrapped) m := by
      rw [same.body]
      rfl
    simp only [ModuleScope.lowerMember, same.lowerBody, ordinary]
  | field _ | wrapper _ | accessors _ => rfl

theorem lowerBodies (fields : FieldLowering) :
    scope'.lowerBodies c fields = scope.lowerBodies c fields := by
  have members := funext (same.lowerMember c fields.wrapped)
  simp only [ModuleScope.lowerBodies, same.partialUpdate, same.lowerBody, members]

theorem lowerComponent (failure : scope'.failures.lookup c.name = scope.failures.lookup c.name) :
    scope'.lowerComponent c = scope.lowerComponent c := by
  simp only [ModuleScope.lowerComponent, same.file, failure, same.lowerBodies]

/-- A component is lowered differently only if different providers are missing, and then these are
    what is wrong with it. -/
theorem lowerComponent_cases :
    scope'.lowerComponent c = scope.lowerComponent c ∨
      scope'.failures.lookup c.name ≠ scope.failures.lookup c.name ∧
      (∀ d, scope.failures.lookup c.name = some d → scope.lowerComponent c = .error d) ∧
      ∀ d, scope'.failures.lookup c.name = some d → scope'.lowerComponent c = .error d := by
  by_cases failure : scope'.failures.lookup c.name = scope.failures.lookup c.name
  · exact .inl (same.lowerComponent c failure)
  · cases fields : c.lowerFields scope.file with
    | error d =>
      -- the fields are checked before providers are looked at
      left
      rw [lowerComponent_of_fault fields, lowerComponent_of_fault (same.file ▸ fields)]
    | ok lowered =>
      exact .inr ⟨failure, fun d => lowerComponent_of_missing fields,
        fun d => lowerComponent_of_missing (same.file ▸ fields)⟩

end Resembles

theorem resembles_of_find? {m : Module} {components : List Component}
    (found : Component.find? components = Component.find? m.components) (options : Options)
    (parser : Script.Parser) :
    (ModuleScope.of m options parser).Resembles (.of { m with components } options parser) :=
  ⟨rfl, rfl, rfl, fun name => congrArg (Option.map _) (congrFun found name)⟩

/-! ## Modules with the same outlines -/

section

variable {m : Module} {components : List Component}
  (same : components.map (Component.outline (Component.declares m.components)) =
    m.components.map (Component.outline (Component.declares m.components)))

include same

theorem resembles_of_outlines (options : Options) (parser : Script.Parser) :
    (ModuleScope.of m options parser).Resembles (.of { m with components } options parser) := by
  refine ⟨rfl, rfl, rfl, fun name => ?_⟩
  have found := Component.find?_of_outline same name
  -- a face is a part of an outline
  have faces := congrArg (Option.map fun outline => (outline.1, outline.2.2.1)) found
  rwa [Option.map_map, Option.map_map] at faces

theorem consumerFailures_of_outlines (file : String) :
    consumerFailures file components = consumerFailures file m.components :=
  congrArg Resolution.failures (Resolution.run_of_outline same)

/-- A component is lowered to the same in modules with the same outlines. -/
theorem lowerComponent_of_outlines (options : Options) (parser : Script.Parser) (c : Component) :
    (ModuleScope.of { m with components } options parser).lowerComponent c =
      (ModuleScope.of m options parser).lowerComponent c :=
  (resembles_of_outlines same options parser).lowerComponent c
    (congrArg (List.lookup c.name) (consumerFailures_of_outlines same _))

end

/-! ## Lowered declarations -/

/-- A declaration is shown as it is, or as what it is lowered to. -/
inductive ShownAs (scope : ModuleScope) (c : Component) : Component → Prop
  | source : ShownAs scope c c
  | lowered {out : LoweredComponent} (accepted : scope.lowerComponent c = .ok out) :
      ShownAs scope c out.decl

variable {scope : ModuleScope} {c : Component} {out : LoweredComponent}

theorem outlines_of_shown {components components' : List Component}
    (shown : List.Forall₂ scope.ShownAs components components') :
    components'.map (Component.outline (Component.declares scope.components)) =
      components.map (Component.outline (Component.declares scope.components)) := by
  induction shown with
  | nil => rfl
  | cons head _ ih =>
    rw [List.map_cons, List.map_cons, ih]
    cases head with
    | source => rfl
    | lowered accepted => rw [outline_of_lowerComponent accepted]

theorem isLowered_of_lowerComponent (accepted : scope.lowerComponent c = .ok out) :
    out.decl.isLowered = true := by
  have plain := plain_of_lower (lower_of_lowerComponent accepted)
  simpa [Component.isLowered] using plain

/-- The names that are rewritten and the keys that are provided are those of the source's table. -/
theorem lowerFields_of_lowerComponent (accepted : scope.lowerComponent c = .ok out) :
    c.lowerFields scope.file =
        .ok ⟨c.loweredMembers, c.fieldTable.providedKeys, c.fieldTable.reactiveNames⟩ ∧
      out.provided = c.fieldTable.providedKeys := by
  obtain ⟨checked, _, _, _, _, _, _, _, rfl⟩ := lowerComponent_ok_iff.mp accepted
  exact ⟨Component.lowerFields_ok_iff.mpr ⟨checked, rfl⟩, rfl⟩

end ModuleScope

/-- A component that is accepted and what it is lowered to look the same from outside.  So the
    provider search finds the same in a module with any of its declarations lowered, and every
    component is lowered to the same there. -/
theorem Module.lowered_looks_like_source (m : Module) (options : Options) (parser : Script.Parser) :
    (∀ c out, (ModuleScope.of m options parser).lowerComponent c = .ok out →
      out.decl.fieldTable = c.fieldTable ∧
      out.decl.instances (Component.declares m.components) =
        c.instances (Component.declares m.components) ∧
      out.decl.isLowered = true ∧
      out.provided = c.fieldTable.providedKeys ∧
      (∃ fields, c.lowerFields (ModuleScope.of m options parser).file = .ok fields ∧
        fields.wrapped = c.fieldTable.reactiveNames) ∧
      ∀ site args, CallSite.bind site out.decl args = CallSite.bind site c args) ∧
    ∀ components, List.Forall₂ (ModuleScope.of m options parser).ShownAs m.components components →
      (∀ file, consumerFailures file components = consumerFailures file m.components) ∧
      ∀ c, (ModuleScope.of { m with components } options parser).lowerComponent c =
        (ModuleScope.of m options parser).lowerComponent c := by
  constructor
  · intro c out accepted
    have outline := ModuleScope.outline_of_lowerComponent accepted
    have face := Component.face_of_outline outline
    obtain ⟨fields, provided⟩ := ModuleScope.lowerFields_of_lowerComponent accepted
    simp only [Component.outline, Prod.mk.injEq] at outline
    obtain ⟨_, _, table, instances⟩ := outline
    exact ⟨table, instances, ModuleScope.isLowered_of_lowerComponent accepted, provided,
      ⟨_, fields, rfl⟩, CallSite.bind_of_face face⟩
  · intro components shown
    have same := ModuleScope.outlines_of_shown shown
    exact ⟨ModuleScope.consumerFailures_of_outlines same,
      ModuleScope.lowerComponent_of_outlines same options parser⟩

namespace MixedForms

/-- A panel with a field and a child that are lowered already, beside ones that are not. -/
def panel : Component where
  name := "Panel"
  isEntry := true
  members := [
    .wrapper {
      name := "count__", sourceField := "count", valueType := "number", binding := .ownedSimple
      initializer := some "0" },
    .accessors ⟨"count", "count__", "number"⟩,
    .field { name := "theme", decorator := .provide none, initializer := some "1" }]
  render := { body := [
    .forEach { source := "this.rows", itemVar := "row" } [
      .element { name := "Badge", args := [{ name := some "value", value := "$count" }] } []],
    .opening { component := "Legend", role := .component [] },
    .closing ⟨"Legend", none⟩] }

def badge : Component where
  name := "Badge"
  members := [.field { name := "value", decorator := .link }]
  render := {}

def legend : Component where
  name := "Legend"
  members := [.field { name := "theme", decorator := .consume none }]
  render := {}

def file : Module := ⟨"mixed.ets", [panel, badge, legend]⟩

end MixedForms

theorem Module.lowered_looks_like_source_mixedForms :
    ∃ out, (ModuleScope.of MixedForms.file {}).lowerComponent MixedForms.panel = .ok out ∧
      out.decl.fieldTable = MixedForms.panel.fieldTable ∧
      out.decl.instances (Component.declares MixedForms.file.components) = ["Badge", "Legend"] ∧
      out.provided = ["theme"] ∧
      (ModuleScope.of { MixedForms.file with
          components := [out.decl, MixedForms.badge, MixedForms.legend] } {}).lowerComponent
        MixedForms.legend =
      (ModuleScope.of MixedForms.file {}).lowerComponent MixedForms.legend := by
  have accepted : (ModuleScope.of MixedForms.file {}).lowerComponent MixedForms.panel = .ok _ :=
    ModuleScope.lowerComponent_ok_iff.mpr ⟨rfl, rfl, _, _, _, _,
      ⟨.cons (.forEach rfl (.cons (.element rfl .nil) .nil))
        (.cons .opening (.cons .closing .nil)), rfl⟩,
      .cons .wrapper (.cons .accessors (.cons .wrapper (.cons .accessors .nil))), rfl⟩
  obtain ⟨source, shown⟩ := Module.lowered_looks_like_source MixedForms.file {} Script.parser
  obtain ⟨table, instances, _, provided, _⟩ := source MixedForms.panel _ accepted
  have others := shown [_, MixedForms.badge, MixedForms.legend]
    (.cons (.lowered accepted) (.cons .source (.cons .source .nil)))
  exact ⟨_, accepted, table, instances.trans rfl, provided.trans rfl, others.2 MixedForms.legend⟩

end ReactiveView
