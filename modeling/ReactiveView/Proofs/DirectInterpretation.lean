import Mathlib
import ReactiveView.Proofs.AbsentNames
import ReactiveView.Proofs.Execution
import ReactiveView.Proofs.ModuleLowering

/-!
# Direct interpretation of source bodies

A body in source forms has a meaning of its own: an element is a node around the nodes of its
children, a conditional is a node around the first arm that holds, a loop is a node around the nodes
of its body for each item.  `Stmt.interpretAll` reads a body that way, without markers and without a
stack, and takes its expressions as they are written.  Executing the lowered body gives the same
nodes: where lowering has replaced a reference to a reactive field, there is a name of no field before
and after.

The link between the two is `BodyRunner.Produces`: lowered statements, executed inside any block with
any markers open, add their nodes to the last open marker and go on with what follows.
-/

namespace ReactiveView

open List
open Reactive (CellId)

/-! ## The interpretation -/

/-- The elements of an array; other values have none. -/
def Json.elements : Json → List Json
  | .arr items => items
  | _ => []

/-- The names that a loop binds for an item: its index, if that has a name, and the item. -/
def Loop.bindings (loop : Loop) (item : Json) (index : Nat) : List (String × Json) :=
  loop.indexVar.toList.map (·, .ofNat index) ++ [(loop.itemVar, item)]

/-- The values of expressions, given the names that loops have bound, innermost first. -/
abbrev Meaning := List (String × Json) → String → Json

namespace Stmt

mutual

/-- The nodes of a statement. -/
def interpret (value : Meaning) (locals : List (String × Json)) : Stmt → List ViewNode
  | .element head children =>
    [.mk head.name (head.args.map fun a => value locals a.value)
      (head.chain.map fun a => (a.method, a.args.map (value locals))) none
      (interpretAll value locals children)]
  | .choice arms _ => [.mk Builtin.conditional [] [] none (interpretArms value locals 0 arms)]
  | .forEach loop body =>
    [.mk Builtin.loop [value locals loop.source] [] none
      ((value locals loop.source).elements.zipIdx.flatMap fun (item, index) =>
        interpretAll value (loop.bindings item index ++ locals) body)]
  | .code _ _ | .opening _ | .closing _ | .branch _ _ _ | .items _ _ _ => []

/-- The nodes of statements one after the other. -/
def interpretAll (value : Meaning) (locals : List (String × Json)) : List Stmt → List ViewNode
  | [] => []
  | s :: rest => s.interpret value locals ++ interpretAll value locals rest

/-- The node of the first arm that holds, if any; the first arm given is at position `index`. -/
def interpretArms (value : Meaning) (locals : List (String × Json)) (index : Nat) :
    List (Arm Stmt) → List ViewNode
  | [] => []
  | ⟨condition, body⟩ :: rest =>
    if condition.all fun code => (value locals code).truthy then
      [.mk Builtin.conditional [] [] (some (UInt32.ofNat index)) (interpretAll value locals body)]
    else interpretArms value locals (index + 1) rest

end

mutual

/-- The expressions that the interpretation of a statement may evaluate. -/
def expressions : Stmt → List String
  | .element head children =>
    head.args.map (·.value) ++ head.chain.flatMap (·.args) ++ expressionsAll children
  | .choice arms _ => expressionsArms arms
  | .forEach loop body => loop.source :: expressionsAll body
  | .code _ _ | .opening _ | .closing _ | .branch _ _ _ | .items _ _ _ => []

/-- The expressions that the interpretation of statements may evaluate. -/
def expressionsAll : List Stmt → List String
  | [] => []
  | s :: rest => s.expressions ++ expressionsAll rest

/-- The expressions that the interpretation of arms may evaluate. -/
def expressionsArms : List (Arm Stmt) → List String
  | [] => []
  | ⟨condition, body⟩ :: rest => condition.toList ++ expressionsAll body ++ expressionsArms rest

end

end Stmt

/-- The values of expressions as they stand, with the values of fields in a world. -/
def Meaning.of (fields : List (String × CellId)) (w : World) : Meaning :=
  fun locals => ViewScope.eval ⟨fields, locals⟩ w

/-! ## References -/

/-- The parser finds each reference of an expression to a reactive field once, where it stands, and
    neither the reference nor what is written in its place names a field. -/
def BodyContext.HasPlainReferences (ctx : BodyContext) (fields : List (String × CellId))
    (code : String) : Prop :=
  Script.Names.needsScan code = true → ∀ tree, ctx.parser.expression? code.toList = some tree →
    ((tree.thisMembers.filterMap ctx.names.replacement?).map (·.start)).Nodup ∧
    ∀ m ∈ tree.thisMembers, ∀ r, ctx.names.replacement? m = some r → m.StandsIn code.toList ∧
      fields.lookup m.name = none ∧ fields.lookup (String.ofList r.text) = none

/-- Resolved references have the values of the text as it stands. -/
theorem BodyContext.eval_resolve {ctx : BodyContext} {fields : List (String × CellId)}
    {code : String} (plain : ctx.HasPlainReferences fields code) (locals : List (String × Json))
    (w : World) :
    Meaning.of fields w locals (ctx.resolve code) = Meaning.of fields w locals code := by
  rw [resolve, Script.Names.expression]
  by_cases scanned : Script.Names.needsScan code = true
  · rw [if_pos scanned]
    cases read : ctx.parser.expression? code.toList with
    | none => rfl
    | some tree =>
      obtain ⟨once, each⟩ := plain scanned tree read
      cases found : tree.calledNames.find? ctx.names.builds with
      | some name => simp only [Script.Names.substitute, found]
      | none =>
        simp only [Script.Names.substitute, found, Meaning.of, ViewScope.eval, Expr.eval,
          String.toList_ofList]
        rw [Script.Replacement.Exchanges.eval?_splice ?_ once]
        intro r member
        obtain ⟨m, isMember, refers⟩ := mem_filterMap.mp member
        obtain ⟨stands, absent, absent'⟩ := each m isMember r refers
        exact stands.exchanges refers (by simp [ViewScope.names, absent])
          (by simp [ViewScope.names, absent'])
  · rw [if_neg scanned]

/-! ## Statements that produce nodes -/

namespace BodyRunner

variable {x : BodyRunner} {w : World} {locals : List (String × Json)} {added : List ViewNode}
  {location : Location} {branchId : UInt32} {body : List Stmt}

/-- Executing statements adds nodes to the last open marker, or to the block if none is open, and
    goes on with what follows. -/
def Produces (x : BodyRunner) (w : World) (locals : List (String × Json)) (stmts : List Stmt)
    (added : List ViewNode) : Prop :=
  ∀ path outer index opened nodes rest (e : Execution), e.world = w →
    ∃ index' e', e.SameViews e' ∧
      (x.block ⟨path, locals⟩ outer index opened nodes (stmts ++ rest)).run.run e =
        (x.block ⟨path, locals⟩ outer index' (addNodes added opened nodes).1
          (addNodes added opened nodes).2 rest).run.run e'

theorem Produces.nil : Produces x w locals [] [] := by
  intro path outer index opened nodes rest e _
  exact ⟨index, e, .refl e, by simp⟩

theorem Produces.append {first second : List Stmt} {added' : List ViewNode}
    (head : Produces x w locals first added) (tail : Produces x w locals second added') :
    Produces x w locals (first ++ second) (added ++ added') := by
  intro path outer index opened nodes rest e world
  obtain ⟨index', e', same, ran⟩ := head path outer index opened nodes (second ++ rest) e world
  obtain ⟨index'', e'', same', ran'⟩ := tail path outer index' (addNodes added opened nodes).1
    (addNodes added opened nodes).2 rest e' (same.world.trans world)
  refine ⟨index'', e'', same.trans same', ?_⟩
  rw [List.append_assoc, ran, ran', addNodes_append]

/-- Statements that are a block of their own return what they produce. -/
theorem Produces.run_block {stmts : List Stmt} (produces : Produces x w locals stmts added)
    (path : List String) (outer : Option (List Json)) {e : Execution} (world : e.world = w) :
    ∃ e', e.SameViews e' ∧
      (x.block ⟨path, locals⟩ outer 0 [] [] stmts).run.run e = (.ok added, e') := by
  obtain ⟨index, e', same, ran⟩ := produces path outer 0 [] [] [] e world
  rw [List.append_nil] at ran
  exact ⟨e', same, ran.trans (by simp [addNodes, block]; rfl)⟩

/-- A marker around statements produces one node. -/
theorem Produces.marked {inner : List Stmt} {m : OpenMarker}
    (plain : ∀ bindings, m.role ≠ .component bindings) (body : Produces x w locals inner added) :
    Produces x w locals
      (.opening m :: inner ++ [.closing ⟨m.component, m.role.branchId?⟩])
      [.mk m.component (m.args.map (ViewScope.eval ⟨x.fields, locals⟩ w))
        (m.attributes.map fun a => (a.method, a.args.map (ViewScope.eval ⟨x.fields, locals⟩ w)))
        m.role.branchId? added] := by
  intro path outer index opened nodes rest e world
  obtain ⟨index', e', same, ran⟩ := body path outer (index + 1)
    (x.plainNode ⟨path, locals⟩ e.world m :: opened) nodes
    (.closing ⟨m.component, m.role.branchId?⟩ :: rest) e world
  refine ⟨index' + 1, e', same, ?_⟩
  simp only [List.cons_append, List.append_assoc, List.nil_append]
  rw [run_block_opening x ⟨path, locals⟩ plain, ran]
  simp only [addNodes]
  rw [run_block_closing x ⟨path, locals⟩ (by rfl) (by rfl)]
  subst world
  rfl

/-- Ordinary code produces nothing. -/
theorem Produces.code {text : String} : Produces x w locals [.code text location] [] := by
  intro path outer index opened nodes rest e _
  rw [addNodes_nil]
  exact ⟨index + 1, e, .refl e, run_block_cons x _ (by rw [stmt]; rfl)⟩

/-- The body of an arm with its markers produces one node, which has the branch of the arm. -/
theorem Produces.arm {inner : List Stmt} {site : UInt32} (body : Produces x w locals inner added) :
    Produces x w locals (BodyContext.armBody site branchId location inner)
      [.mk Builtin.conditional [] [] (some branchId) added] :=
  body.marked (m := ⟨Builtin.conditional, [], [], .arm site branchId, location⟩)
    (fun _ => Role.noConfusion)

/-- Executing the first arm that holds gives nodes; no arm gives none. -/
def ArmsProduce (x : BodyRunner) (w : World) (locals : List (String × Json))
    (arms : List (BranchArm Stmt)) (added : List ViewNode) : Prop :=
  match chosen (x.holds locals w) 0 arms with
  | none => added = []
  | some (position, _) =>
    ∀ path outer (e : Execution), e.world = w →
      ∃ e', e.SameViews e' ∧
        (x.arm ⟨path, locals⟩ outer position arms).run.run e = (.ok added, e')

theorem ArmsProduce.nil : ArmsProduce x w locals [] [] := rfl

theorem ArmsProduce.here {condition : Option String} {rest : List (BranchArm Stmt)}
    (truth : condition.all (x.holds locals w)) (produces : Produces x w locals body added) :
    ArmsProduce x w locals (⟨condition, branchId, body⟩ :: rest) added := by
  rw [ArmsProduce, chosen, if_pos truth]
  exact fun path outer _ world => produces.run_block path outer world

theorem ArmsProduce.later {condition : Option String} {rest : List (BranchArm Stmt)}
    (truth : ¬ condition.all (x.holds locals w)) (produces : ArmsProduce x w locals rest added) :
    ArmsProduce x w locals (⟨condition, branchId, body⟩ :: rest) added := by
  rw [ArmsProduce, chosen, if_neg truth, chosen_succ]
  rw [ArmsProduce] at produces
  cases found : chosen (x.holds locals w) 0 rest with
  | none =>
    rw [found] at produces
    exact produces
  | some choice =>
    rw [found] at produces
    exact produces

/-- A branch block produces the nodes of its arm. -/
theorem ArmsProduce.branch {site : UInt32} {location : Location} {arms : List (BranchArm Stmt)}
    {added : List ViewNode} (each : ArmsProduce x w locals arms added) :
    Produces x w locals [.branch site arms location] added := by
  intro path outer index opened nodes rest e world
  subst world
  have branch := run_stmt_branch x ⟨path, locals⟩ outer index opened nodes site arms location e
  rw [ArmsProduce] at each
  cases found : chosen (x.holds locals e.world) 0 arms with
  | none =>
    simp only [found] at branch each
    rw [each, addNodes_nil]
    exact ⟨index + 1, _, .of_activate rfl, run_block_cons x _ branch⟩
  | some choice =>
    simp only [found] at branch each
    obtain ⟨e', same, ran⟩ := each (path ++ [s!"s{site}b{choice.2}"]) (currentItems outer opened)
      ((activate site (some choice.2)).run.run e).2 rfl
    rw [ExecM.run_bind_ok ran] at branch
    exact ⟨index + 1, e', .trans (.of_activate rfl) same, run_block_cons x _ branch⟩

/-- A conditional produces one node around the nodes of its arm. -/
theorem ArmsProduce.conditional {site : UInt32} {arms : List (BranchArm Stmt)}
    (each : ArmsProduce x w locals arms added) :
    Produces x w locals (BodyContext.conditional site location arms)
      [.mk Builtin.conditional [] [] none added] :=
  Produces.marked (m := ⟨Builtin.conditional, [], [], .conditional site, location⟩)
    (fun _ => Role.noConfusion) each.branch

/-- The body of a loop is executed once for each item. -/
theorem run_forItems {params : List String} {added : Json → Nat → List ViewNode}
    (outer : Option (List Json)) (each : ∀ item index, Produces x w (itemNames params item index ++
      locals) body (added item index)) (path : List String) (items : List Json) (index : Nat)
    (e : Execution) (world : e.world = w) :
    ∃ e', e.SameViews e' ∧
      (forItems ⟨path, locals⟩ params (fun pos => x.block pos outer 0 [] [] body) index
        items).run.run e =
      (.ok ((items.zipIdx index).flatMap fun (item, index) => added item index), e') := by
  induction items generalizing index e with
  | nil => exact ⟨e, .refl e, rfl⟩
  | cons item items ih =>
    obtain ⟨e', same, head⟩ := (each item index).run_block (path ++ [s!"i{index}"]) outer world
    obtain ⟨e'', same', tail⟩ := ih (index + 1) e' (same.world.trans world)
    refine ⟨e'', same.trans same', ?_⟩
    rw [forItems, ExecM.run_bind_ok head, ExecM.run_bind_ok tail]
    rfl

theorem itemNames_loop (loop : Loop) (item : Json) (index : Nat) :
    itemNames (loop.itemVar :: loop.indexVar.toList) item index = loop.bindings item index := by
  unfold Loop.bindings
  cases loop.indexVar <;> rfl

theorem itemsOf_singleton (value : Json) : itemsOf [value] = value.elements := by
  cases value <;> rfl

/-- A loop produces one node around the nodes of its items. -/
theorem Produces.loop {loop : Loop} {added : Json → Nat → List ViewNode} (each : ∀ item index,
      Produces x w (loop.bindings item index ++ locals) body (added item index)) :
    Produces x w locals (BodyContext.loopBody loop body)
      [.mk Builtin.loop [ViewScope.eval ⟨x.fields, locals⟩ w loop.source] [] none
        ((ViewScope.eval ⟨x.fields, locals⟩ w loop.source).elements.zipIdx.flatMap
          fun (item, index) => added item index)] := by
  intro path outer index opened nodes rest e world
  subst world
  simp only [← itemNames_loop] at each
  -- the generator runs for the items of the marker around it
  let frame := x.plainNode ⟨path, locals⟩ e.world
    ⟨Builtin.loop, [loop.source], [], .loop, loop.location⟩
  obtain ⟨e', same, ran⟩ := run_forItems frame.items each path (frame.items.getD []) 0 e rfl
  have generated := ExecM.run_bind_ok
    (f := fun added => pure (addNodes added (frame :: opened) nodes)) ran
  refine ⟨index + 1 + 1 + 1, e', same, ?_⟩
  simp only [BodyContext.loopBody, List.cons_append, List.nil_append]
  rw [run_block_opening x ⟨path, locals⟩ fun _ => Role.noConfusion,
    run_block_cons x ⟨path, locals⟩ (by rw [stmt]; exact generated),
    run_block_closing x ⟨path, locals⟩ (by rfl) (by rfl), ← itemsOf_singleton]
  rfl

end BodyRunner

/-! ## Lowered statements produce their interpretation -/

namespace BodyContext

variable {ctx : BodyContext} {method : String} {x : BodyRunner} {w : World}

/-- An element that names no component gets a marker with its own name, arguments and attributes. -/
theorem openElement_produces {head : Element} {marker : OpenMarker} {inner : List Stmt}
    {added : List ViewNode} {locals : List (String × Json)} (unknown : ctx.isChild head.name = false)
    (opened : ctx.openElement head = .ok marker)
    (plain : ∀ code ∈ head.args.map (·.value) ++ head.chain.flatMap (·.args),
      ctx.HasPlainReferences x.fields code) (body : x.Produces w locals inner added) :
    x.Produces w locals (.opening marker :: inner ++ [.closing ⟨head.name, none⟩])
      [.mk head.name (head.args.map fun a => Meaning.of x.fields w locals a.value)
        (head.chain.map fun a => (a.method, a.args.map (Meaning.of x.fields w locals)))
        none added] := by
  have unknown : ctx.child? head.name = none := by simpa [isChild] using unknown
  -- without a component behind it, the element keeps its arguments
  have marker := openElement_plain unknown opened
  subst marker
  have value (code : String) (member : code ∈ head.args.map (·.value) ++ head.chain.flatMap (·.args)) :
      ViewScope.eval ⟨x.fields, locals⟩ w (ctx.resolve code) = Meaning.of x.fields w locals code :=
    eval_resolve (plain code member) locals w
  simp only [mem_append, mem_map, mem_flatMap] at value
  have args : head.args.map (fun a => ViewScope.eval ⟨x.fields, locals⟩ w (ctx.resolve a.value)) =
      head.args.map fun a => Meaning.of x.fields w locals a.value :=
    map_congr_left fun a member => value _ (.inl ⟨a, member, rfl⟩)
  have chain : head.chain.map (fun a => (a.method, a.args.map fun code =>
        ViewScope.eval ⟨x.fields, locals⟩ w (ctx.resolve code))) =
      head.chain.map fun a => (a.method, a.args.map (Meaning.of x.fields w locals)) :=
    map_congr_left fun a member => congrArg (a.method, ·)
      (map_congr_left fun code arg => value code (.inr ⟨a, member, arg⟩))
  have marked := body.marked (m := {
      component := head.name
      args := head.args.map fun a => ctx.resolve a.value
      attributes := head.chain.map ctx.resolveAttribute
      role := .element
      location := head.location }) (fun _ => Role.noConfusion)
  simp only [map_map, Function.comp_def, resolveAttribute, args, chain] at marked
  exact marked

/-- A lowered condition holds if and only if the condition does. -/
theorem condition_holds {location : Location} {condition condition' : Option String}
    (locals : List (String × Json))
    (kept : condition.mapM (ctx.expression location) = .ok condition')
    (plain : ∀ code ∈ condition.toList, ctx.HasPlainReferences x.fields code) :
    condition'.all (x.holds locals w) =
      condition.all fun code => (Meaning.of x.fields w locals code).truthy := by
  cases condition with
  | none =>
    cases kept
    rfl
  | some code =>
    obtain ⟨text, resolved, same⟩ := except_bind_ok_iff.mp kept
    cases same
    rw [eq_resolve_of_expression_ok resolved, Option.all_some, Option.all_some,
      ← eval_resolve (plain code (by simp))]
    rfl

theorem loopHead_ok {loop loop' : Loop} (head : ctx.loopHead loop = .ok loop') :
    loop'.source = ctx.resolve loop.source ∧ loop'.bindings = loop.bindings := by
  obtain ⟨source, resolved, head⟩ := except_bind_ok_iff.mp head
  obtain ⟨keyGenerator, _, same⟩ := except_bind_ok_iff.mp head
  cases same
  exact ⟨eq_resolve_of_expression_ok resolved, rfl⟩

mutual

theorem Lowers.produces {stmt : Stmt} {out : List Stmt} {s s' : LoweringState} :
    Lowers ctx method stmt s out s' → s.registry.Counted → stmt.isSource = true →
    stmt.instances ctx.isChild = [] →
    (∀ code ∈ stmt.expressions, ctx.HasPlainReferences x.fields code) → ∀ locals,
      x.Produces w locals out (stmt.interpret (.of x.fields w) locals)
  | .element opened body, counted, source, childless, plain, locals => by
    simp only [Stmt.instances, append_eq_nil_iff, ite_eq_right_iff, cons_ne_nil,
      imp_false, Bool.not_eq_true] at childless
    rw [Stmt.expressions, forall_mem_append] at plain
    exact openElement_produces childless.1 opened plain.1
      (body.produces counted source childless.2 plain.2 locals)
  | .choice _ each, counted, source, childless, plain, locals =>
    (each.produces (counted.register _ _ _ _) source childless plain locals).conditional
  | .forEach head each, counted, source, childless, plain, locals => by
    rw [Stmt.expressions, forall_mem_cons] at plain
    obtain ⟨source', bindings⟩ := loopHead_ok head
    have looped := BodyRunner.Produces.loop fun item index => by
      rw [bindings]
      exact each.produces counted source childless plain.2 (_ ++ locals)
    have value : ViewScope.eval ⟨x.fields, locals⟩ w _ = _ := eval_resolve plain.1 locals w
    rw [source', value] at looped
    exact looped
  | .code _, _, _, _, _, _ => .code

theorem LowersAll.produces {body out : List Stmt} {s s' : LoweringState} :
    LowersAll ctx method body s out s' → s.registry.Counted → Stmt.areSource body = true →
    Stmt.instancesAll ctx.isChild body = [] →
    (∀ code ∈ Stmt.expressionsAll body, ctx.HasPlainReferences x.fields code) → ∀ locals,
      x.Produces w locals out (Stmt.interpretAll (.of x.fields w) locals body)
  | .nil, _, _, _, _, _ => .nil
  | .cons head tail, counted, source, childless, plain, locals => by
    rw [Stmt.areSource, Bool.and_eq_true] at source
    rw [Stmt.instancesAll, append_eq_nil_iff] at childless
    rw [Stmt.expressionsAll, forall_mem_append] at plain
    exact (head.produces counted source.1 childless.1 plain.1 locals).append
      (tail.produces (head.counted counted) source.2 childless.2 plain.2 locals)

theorem LowersArms.produces {site : UInt32} {location : Location} {index : Nat}
    {arms : List (Arm Stmt)} {out : List (BranchArm Stmt)} {s s' : LoweringState} :
    LowersArms ctx method site location index arms s out s' → s.registry.Counted →
    Stmt.areSourceArms arms = true → Stmt.instancesArms ctx.isChild arms = [] →
    (∀ code ∈ Stmt.expressionsArms arms, ctx.HasPlainReferences x.fields code) → ∀ locals,
      x.ArmsProduce w locals out (Stmt.interpretArms (.of x.fields w) locals index arms)
  | .nil, _, _, _, _, _ => .nil
  | .cons kept head tail, counted, source, childless, plain, locals => by
    rw [Stmt.areSourceArms, Bool.and_eq_true] at source
    rw [Stmt.instancesArms, append_eq_nil_iff] at childless
    rw [Stmt.expressionsArms, forall_mem_append, forall_mem_append] at plain
    have body := head.produces counted source.1 childless.1 plain.1.2 locals
    have others := tail.produces (head.counted counted) source.2 childless.2 plain.2 locals
    have same := condition_holds (x := x) (w := w) locals kept plain.1.1
    -- the branch of an arm is its position, since the conditional has just been registered
    rw [Stmt.interpretArms, branch_of_counted counted]
    split
    next truth => exact .here (same.trans truth) body.arm
    next truth => exact .later (by rwa [same]) others

end

end BodyContext

/-! ## Rendering a lowered component -/

namespace ModuleScope

variable {scope : ModuleScope} {c : Component} {out : LoweredComponent}

/-- The lowered render body of a component in source forms that instantiates no component produces
    what the body means. -/
theorem render_produces (lowered : scope.lowerComponent c = .ok out)
    (source : Stmt.areSource c.render.body = true)
    (childless : Stmt.instancesAll (Component.declares scope.components) c.render.body = [])
    (x : BodyRunner) (plain : ∀ code ∈ Stmt.expressionsAll c.render.body,
      (scope.bodyOf c).HasPlainReferences x.fields code) (w : World) :
    x.Produces w [] out.decl.render.body
      (Stmt.interpretAll (.of x.fields w) [] c.render.body) := by
  obtain ⟨_, _, body, members, middle, last, render, _, rfl⟩ := lowerComponent_ok_iff.mp lowered
  have none : Stmt.instancesAll (scope.bodyOf c).isChild c.render.body = [] := by
    rwa [funext isChild_bodyOf]
  exact render.lowers.produces (fun _ known => absurd known not_mem_nil) source none plain []

/-- Executing the lowered render body of a component gives exactly the nodes of the direct
    interpretation of its source body, whatever the values of its fields, and so does rendering any
    view of it.  Expressions are read as they stand in the source.  Where one refers to a reactive
    field, a field with the name of the reference or of the private field would be read in its
    place (`CountPage.shadowed`). -/
theorem run_render_eq_interpretation (lowered : scope.lowerComponent c = .ok out)
    (source : Stmt.areSource c.render.body = true)
    (childless : Stmt.instancesAll (Component.declares scope.components) c.render.body = [])
    (x : BodyRunner) (plain : ∀ code ∈ Stmt.expressionsAll c.render.body,
      (scope.bodyOf c).HasPlainReferences x.fields code) (e : Execution) :
    let nodes := Stmt.interpretAll (.of x.fields e.world) [] c.render.body
    (∃ e', (x.run out.decl.render.body).run.run e = (.ok nodes, e') ∧ e.SameViews e') ∧
    ∀ (catalog : Catalog) (render : Renderer) (view : View) (provided : Provided),
      catalog.find? view.name = some out.decl → view.fields = x.fields →
      (catalog.renderWith render view provided e.world).1 = .ok () ∧
      (catalog.renderWith render view provided e.world).2.1.tree =
        some (.mk c.name [] [] none nodes) := by
  intro nodes
  constructor
  · obtain ⟨e', same, ran⟩ :=
      (render_produces lowered source childless x plain e.world).run_block [] none rfl
    exact ⟨e', ran, same⟩
  · intro catalog render view provided found fields
    have produces := render_produces lowered source childless
      (catalog.runner render view provided out.decl) (by simpa [Catalog.runner, fields] using plain)
      e.world
    obtain ⟨e', _, ran⟩ := produces.run_block [] none (e := view.start e.world) rfl
    rw [Catalog.renderWith_of_ok found ran]
    have name : out.decl.name = c.name := by
      obtain ⟨_, _, _, _, _, _, _, _, rfl⟩ := lowerComponent_ok_iff.mp lowered
      rfl
    refine ⟨rfl, ?_⟩
    rw [← name]
    simp only [View.rendered, View.tree, Catalog.runner, fields, nodes]

end ModuleScope

/-! Pages with a count.  On one of them a plain field has the name of the private field behind the
count. -/

namespace CountPage

theorem expression?_reference : Script.expression? "this.$count".toList =
    some (.mk (.member "$count" 5 11) [.mk .this []]) := by cbv

theorem expression_reference {names : Script.Names} (wrapped : names.wrapped "count" = true) :
    names.expression "this.$count" = .ok "this.count__" := by
  have scanned : Script.Names.needsScan "this.$count" = true := by decide
  have read : Script.parser.expression? "this.$count".toList = _ := expression?_reference
  have found : names.replacement? ⟨"$count", 5, 11⟩ = some ⟨5, 11, "count__".toList⟩ := if_pos wrapped
  have members : (Script.Node.mk (.member "$count" 5 11) [.mk .this []]).thisMembers =
      [⟨"$count", 5, 11⟩] := rfl
  simp only [Script.Names.expression, if_pos scanned, read, Script.Names.substitute, members,
    filterMap_cons, found, filterMap_nil, Script.splice, mergeSort_singleton]
  rfl

/-- A page that shows a text and a list of lists or, if the count is zero, another text. -/
def page : Component where
  name := "Page"
  members := [.field { name := "count", decorator := .state, initializer := some "1" },
    .field { name := "rows", decorator := .state, initializer := some "[[2, 3]]" }]
  render := { body := [
    .element { name := "Column", chain := [{ method := "width", args := ["10"] }] } [
      .choice [
        ⟨some "this.count", [
          .element { name := "Text", args := [{ value := "this.$count" }] } [],
          .forEach { source := "this.rows", itemVar := "n" } [
            .forEach { source := "n", itemVar := "n", indexVar := some "i" } [
              .element { name := "Text", args := [{ value := "n" }, { value := "i" }] } []]]]⟩,
        ⟨none, [.element { name := "Text", args := [{ value := "'off'" }] } []]⟩] {},
      .code "log" {}]] }

def shadowed : Component where
  name := "Page"
  members := [.field { name := "count", decorator := .state, initializer := some "1" },
    .field { name := "count__", initializer := some "7" }]
  render := { body := [.element { name := "Text", args := [{ value := "this.$count" }] } []] }

def scope (c : Component) : ModuleScope := ⟨"page.ets", true, [c], [], Script.parser⟩

theorem openElement_reference {c : Component}
    (wrapped : ((scope c).bodyOf c).names.wrapped "count" = true)
    (unknown : ((scope c).bodyOf c).child? "Text" = none) :
    ((scope c).bodyOf c).openElement { name := "Text", args := [{ value := "this.$count" }] } =
      .ok { component := "Text", args := ["this.count__"], role := .element } := by
  have kept : ((scope c).bodyOf c).names.expression "this.$count" ((scope c).bodyOf c).parser = _ :=
    expression_reference wrapped
  simp [BodyContext.openElement, unknown, BodyContext.expression, kept]
  rfl

def int (n : Int) : Json := .num (.int n)

def world (first second : Json) : World :=
  { store := (({} : Reactive.Store).create .ownedSimple first).create .plain second }

theorem hasPlainReferences {c : Component} {fields : List (String × CellId)}
    (absent : fields.lookup "$count" = none) (absent' : fields.lookup "count__" = none) :
    ((scope c).bodyOf c).HasPlainReferences fields "this.$count" := by
  intro _ tree read
  have read : Script.expression? "this.$count".toList = some tree := read
  rw [expression?_reference] at read
  cases read
  have members : (Script.Node.mk (.member "$count" 5 11) [.mk .this []]).thisMembers =
      [⟨"$count", 5, 11⟩] := rfl
  rw [members]
  constructor
  · cases found : ((scope c).bodyOf c).names.replacement? ⟨"$count", 5, 11⟩ <;> simp [found]
  · intro m member r replaced
    cases mem_singleton.mp member
    obtain ⟨_, same⟩ := Option.ite_none_right_eq_some.mp replaced
    cases same
    exact ⟨⟨"this.".toList, [], rfl, rfl, rfl, ⟨by decide, rfl, .inl rfl, rfl⟩, all_eq_true.mp rfl⟩,
      absent, absent'⟩

end CountPage

namespace ModuleScope

open CountPage

theorem run_render_eq_interpretation_countPage :
    ∃ out e', (scope page).lowerComponent page = .ok out ∧
      (BodyRunner.run ⟨"Page", [("count", 0), ("rows", 1)], fun _ _ _ _ => pure []⟩
        out.decl.render.body).run.run
          { world := world (int 1) (.arr [.arr [int 2, int 3]]), former := [], history := {} } =
      (.ok [
        .mk "Column" [] [("width", [int 10])] none [
          .mk "If" [] [] none [.mk "If" [] [] (some 0) [
            .mk "Text" [.null] [] none [],
            .mk "ForEach" [.arr [.arr [int 2, int 3]]] [] none [
              .mk "ForEach" [.arr [int 2, int 3]] [] none [
                .mk "Text" [int 2, int 0] [] none [], .mk "Text" [int 3, int 1] [] none []]]]]]],
        e') := by
  have rules := @lowerComponent_ok_iff (scope page) page
  have lowered := rules.mpr ⟨rfl, rfl, _, _, _, _,
    ⟨.cons (.element rfl (.cons (.choice rfl
        (.cons rfl (.cons (.element (openElement_reference rfl rfl) .nil)
          (.cons (.forEach rfl (.cons (.forEach rfl (.cons (.element rfl .nil) .nil)) .nil)) .nil))
          (.cons rfl (.cons (.element rfl .nil) .nil) .nil)))
        (.cons (.code rfl) .nil))) .nil, rfl⟩,
    .cons .wrapper (.cons .accessors (.cons .wrapper (.cons .accessors .nil))), rfl⟩
  have plain : ∀ code ∈ Stmt.expressionsAll page.render.body,
      ((scope page).bodyOf page).HasPlainReferences [("count", 0), ("rows", 1)] code := by
    intro code member
    by_cases scanned : Script.Names.needsScan code = true
    · have only : ∀ code ∈ Stmt.expressionsAll page.render.body,
          Script.Names.needsScan code = true → code = "this.$count" := by decide
      cases only code member scanned
      exact hasPlainReferences rfl rfl
    · exact fun scanned' => absurd scanned' scanned
  obtain ⟨⟨e', ran, _⟩, _⟩ := run_render_eq_interpretation lowered rfl rfl
    ⟨"Page", [("count", 0), ("rows", 1)], fun _ _ _ _ => pure []⟩ plain
    { world := world (int 1) (.arr [.arr [int 2, int 3]]), former := [], history := {} }
  refine ⟨_, e', lowered, ran.trans ?_⟩
  with_unfolding_all rfl

theorem run_render_of_shadowed :
    ∃ out, (scope shadowed).lowerComponent shadowed = .ok out ∧
      Stmt.areSource shadowed.render.body = true ∧
      Stmt.instancesAll (Component.declares [shadowed]) shadowed.render.body = [] ∧
      ((BodyRunner.run ⟨"Page", [("count", 0), ("count__", 1)], fun _ _ _ _ => pure []⟩
        out.decl.render.body).run.run
          { world := world (int 1) (int 7), former := [], history := {} }).1 =
        .ok [.mk "Text" [int 7] [] none []] ∧
      Stmt.interpretAll (.of [("count", 0), ("count__", 1)] (world (int 1) (int 7))) []
        shadowed.render.body = [.mk "Text" [.null] [] none []] := by
  have rules := @lowerComponent_ok_iff (scope shadowed) shadowed
  have lowered := rules.mpr ⟨rfl, rfl, _, _, _, _,
    ⟨.cons (.element (openElement_reference rfl rfl) .nil) .nil, rfl⟩,
    .cons .wrapper (.cons .accessors (.cons .field .nil)), rfl⟩
  refine ⟨_, lowered, rfl, rfl, ?_, ?_⟩
  · with_unfolding_all rfl
  · with_unfolding_all rfl

end ModuleScope

end ReactiveView
