import ReactiveView.View.Render

/-!
# Steps of an execution

What single steps of the execution of a body do to the state of the execution.  Evaluating code
reads the state only.  A marker that is opened and closed leaves one node, with what was added to it
in between as its children.
-/

namespace ReactiveView

namespace ExecM

variable {α β : Type}

theorem run_bind (p : ExecM α) (f : α → ExecM β) (e : Execution) :
    (p >>= f).run.run e =
      match p.run.run e with
      | (.ok a, e) => (f a).run.run e
      | (.error fault, e) => (.error fault, e) := by
  simp only [ExceptT.run_bind, StateT.run_bind]
  change (match p.run.run e with | (result, e) => _) = _
  cases p.run.run e with
  | mk result e' => cases result <;> rfl

theorem run_bind_ok {p : ExecM α} {f : α → ExecM β} {e e' : Execution} {a : α}
    (ran : p.run.run e = (.ok a, e')) : (p >>= f).run.run e = (f a).run.run e' := by
  rw [run_bind, ran]

theorem run_get_bind (f : Execution → ExecM β) (e : Execution) :
    (get >>= f : ExecM β).run.run e = (f e).run.run e := rfl

end ExecM

namespace BodyRunner

variable (x : BodyRunner) (pos : Position) {outer : Option (List Json)} {index : Nat}
  {opened : List OpenNode} {nodes : List ViewNode} {rest : List Stmt} {e : Execution}

/-! ## Evaluation -/

theorem run_eval (code : String) (e : Execution) :
    (x.eval pos code).run.run e = (.ok ((x.scope pos).eval e.world code), e) := rfl

theorem run_evalAll (codes : List String) (e : Execution) :
    (codes.mapM (x.eval pos)).run.run e = (.ok (codes.map ((x.scope pos).eval e.world)), e) := by
  induction codes with
  | nil => rfl
  | cons code codes ih =>
    rw [List.mapM_cons, ExecM.run_bind_ok (run_eval x pos code e), ExecM.run_bind_ok ih]
    rfl

/-- The value of an attribute. -/
def attributeValue (w : World) (a : Attribute) : String × List Json :=
  (a.method, a.args.map ((x.scope pos).eval w))

theorem run_attributes (attributes : List Attribute) (e : Execution) :
    (attributes.mapM fun a => do return (a.method, ← a.args.mapM (x.eval pos)) :
        ExecM (List (String × List Json))).run.run e =
      (.ok (attributes.map (x.attributeValue pos e.world)), e) := by
  induction attributes with
  | nil => rfl
  | cons a attributes ih =>
    have head : ((do return (a.method, ← a.args.mapM (x.eval pos))) :
        ExecM (String × List Json)).run.run e = (.ok (x.attributeValue pos e.world a), e) := by
      rw [ExecM.run_bind_ok (run_evalAll x pos a.args e)]
      rfl
    rw [List.mapM_cons, ExecM.run_bind_ok head, ExecM.run_bind_ok ih]
    rfl

/-! ## Markers -/

/-- The node of a marker when it is opened, unless the marker stands for a component. -/
def plainNode (w : World) (m : OpenMarker) : OpenNode where
  name := m.component
  args := m.args.map ((x.scope pos).eval w)
  attributes := m.attributes.map (x.attributeValue pos w)
  branchId := m.role.branchId?
  items := if m.role = .loop then some (itemsOf (m.args.map ((x.scope pos).eval w))) else none

theorem run_openMarker (index : Nat) (m : OpenMarker) (e : Execution)
    (plain : ∀ bindings, m.role ≠ .component bindings) :
    (x.openMarker pos index m).run.run e = (.ok (x.plainNode pos e.world m), e) := by
  unfold openMarker
  rw [ExecM.run_bind_ok (run_evalAll x pos m.args e),
    ExecM.run_bind_ok (run_attributes x pos m.attributes e)]
  cases role : m.role with
  | component bindings => exact absurd role (plain bindings)
  | element | conditional _ | arm _ _ | loop =>
    simp only [plainNode, role, Role.branchId?]
    rfl

theorem run_closeMarker (m : CloseMarker) (frame : OpenNode) (opened : List OpenNode)
    (nodes : List ViewNode) (e : Execution) (name : frame.name = m.component)
    (branchId : frame.branchId = m.branchId) :
    (x.closeMarker m (frame :: opened) nodes).run.run e =
      (.ok (addNodes [frame.node] opened nodes), e) := by
  simp only [closeMarker, if_pos (And.intro name branchId)]
  cases opened <;> rfl

/-- A close marker ends the last open node and changes nothing else. -/
theorem closeMarker_ok_iff {m : CloseMarker} {after : List OpenNode × List ViewNode}
    {last : Execution} :
    (x.closeMarker m opened nodes).run.run e = (.ok after, last) ↔
      ∃ frame rest, opened = frame :: rest ∧ frame.name = m.component ∧
        frame.branchId = m.branchId ∧ after = addNodes [frame.node] rest nodes ∧ last = e := by
  constructor
  · intro ran
    cases opened with
    | nil => cases ran
    | cons frame rest =>
      by_cases same : frame.name = m.component ∧ frame.branchId = m.branchId
      · rw [run_closeMarker x m frame rest nodes e same.1 same.2] at ran
        cases ran
        exact ⟨frame, rest, rfl, same.1, same.2, rfl, rfl⟩
      · simp only [closeMarker, if_neg same] at ran
        cases ran
  · rintro ⟨frame, rest, rfl, name, branchId, rfl, rfl⟩
    exact run_closeMarker x m frame rest nodes _ name branchId

/-! ## Blocks -/

theorem run_block_cons {opened' : List OpenNode} {nodes' : List ViewNode} {stmt : Stmt}
    {e' : Execution}
    (ran : (x.stmt pos outer index opened nodes stmt).run.run e = (.ok (opened', nodes'), e')) :
    (x.block pos outer index opened nodes (stmt :: rest)).run.run e =
      (x.block pos outer (index + 1) opened' nodes' rest).run.run e' := by
  rw [block, ExecM.run_bind_ok ran]

theorem run_block_opening {m : OpenMarker} (plain : ∀ bindings, m.role ≠ .component bindings) :
    (x.block pos outer index opened nodes (.opening m :: rest)).run.run e =
      (x.block pos outer (index + 1) (x.plainNode pos e.world m :: opened) nodes rest).run.run e := by
  apply run_block_cons
  rw [stmt, ExecM.run_bind_ok (run_openMarker x pos index m e plain)]
  rfl

theorem run_block_closing {frame : OpenNode} {m : CloseMarker} (name : frame.name = m.component)
    (branchId : frame.branchId = m.branchId) :
    (x.block pos outer index (frame :: opened) nodes (.closing m :: rest)).run.run e =
      (x.block pos outer (index + 1) (addNodes [frame.node] opened nodes).1
        (addNodes [frame.node] opened nodes).2 rest).run.run e := by
  apply run_block_cons
  rw [stmt, run_closeMarker x m frame opened nodes e name branchId]

@[simp] theorem addNodes_nil (opened : List OpenNode) (nodes : List ViewNode) :
    addNodes [] opened nodes = (opened, nodes) := by
  cases opened <;> simp [addNodes]

theorem addNodes_append (first second : List ViewNode) (opened : List OpenNode)
    (nodes : List ViewNode) :
    addNodes second (addNodes first opened nodes).1 (addNodes first opened nodes).2 =
      addNodes (first ++ second) opened nodes := by
  cases opened <;> simp [addNodes]

/-! ## Conditionals -/

/-- The first arm whose condition holds: its position and its branch. -/
def chosen (holds : String → Bool) (position : Nat) :
    List (BranchArm Stmt) → Option (Nat × UInt32)
  | [] => none
  | arm :: rest =>
    if arm.condition.all holds then some (position, arm.branchId)
    else chosen holds (position + 1) rest

/-- Whether a condition holds, given the names of items. -/
def holds (locals : List (String × Json)) (w : World) (code : String) : Bool :=
  (ViewScope.eval ⟨x.fields, locals⟩ w code).truthy

theorem run_chooseArm (position : Nat) (arms : List (BranchArm Stmt)) (e : Execution) :
    (x.chooseArm pos position arms).run.run e =
      (.ok (chosen (x.holds pos.locals e.world) position arms), e) := by
  induction arms generalizing position with
  | nil => rfl
  | cons arm rest ih =>
    cases condition : arm.condition with
    | none => simp [chooseArm, chosen, condition]; rfl
    | some code =>
      simp only [chooseArm, chosen, condition, Option.all_some]
      rw [ExecM.run_bind_ok (run_eval x pos code e)]
      change (if x.holds pos.locals e.world code then _ else _ : ExecM _).run.run e = _
      cases truth : x.holds pos.locals e.world code with
      | true => rfl
      | false => exact ih (position + 1)

theorem chosen_succ (holds : String → Bool) (position : Nat) (arms : List (BranchArm Stmt)) :
    chosen holds (position + 1) arms =
      (chosen holds position arms).map fun (k, branchId) => (k + 1, branchId) := by
  induction arms generalizing position with
  | nil => rfl
  | cons arm rest ih =>
    simp only [chosen]
    split
    · rfl
    · exact ih (position + 1)

end BodyRunner

/-! ## Executions that render no child -/

/-- Nothing but the recorded choices differs. -/
structure Execution.SameViews (e e' : Execution) : Prop where
  world : e'.world = e.world
  former : e'.former = e.former
  children : e'.children = e.children

namespace Execution.SameViews

theorem refl (e : Execution) : e.SameViews e := ⟨rfl, rfl, rfl⟩

theorem trans {e e' e'' : Execution} (first : e.SameViews e') (second : e'.SameViews e'') :
    e.SameViews e'' :=
  ⟨second.world.trans first.world, second.former.trans first.former,
    second.children.trans first.children⟩

end Execution.SameViews

theorem BodyRunner.run_activate (site : UInt32) (branchId : Option UInt32) (e : Execution) :
    ∃ e', e.SameViews e' ∧ (BodyRunner.activate site branchId).run.run e = (.ok (), e') :=
  ⟨{ e with
      history := (e.history.activate site branchId).2
      activations := e.activations ++ [⟨site, branchId, (e.history.activate site branchId).1⟩] },
    ⟨rfl, rfl, rfl⟩, rfl⟩

theorem Execution.SameViews.of_activate {site : UInt32} {branchId : Option UInt32}
    {e e' : Execution}
    (ran : (BodyRunner.activate site branchId).run.run e = (.ok (), e')) : e.SameViews e' := by
  cases ran
  exact ⟨rfl, rfl, rfl⟩

/-- A branch block records its choice and executes the chosen arm, if there is one. -/
theorem BodyRunner.run_stmt_branch (x : BodyRunner) (pos : Position) (outer : Option (List Json))
    (index : Nat) (opened : List OpenNode) (nodes : List ViewNode) (site : UInt32)
    (arms : List (BranchArm Stmt)) (location : Location) (e : Execution) :
    (x.stmt pos outer index opened nodes (.branch site arms location)).run.run e =
      match chosen (x.holds pos.locals e.world) 0 arms with
      | none => (.ok (opened, nodes), ((activate site none).run.run e).2)
      | some (position, branchId) =>
        (x.arm { pos with path := pos.path ++ [s!"s{site}b{branchId}"] } (currentItems outer opened)
            position arms >>= fun added => pure (addNodes added opened nodes)).run.run
          ((activate site (some branchId)).run.run e).2 := by
  rw [stmt, ExecM.run_bind_ok (run_chooseArm x pos 0 arms e)]
  cases chosen (x.holds pos.locals e.world) 0 arms <;> rfl

/-! ## Views -/

/-- The start of the execution of the body of a view. -/
def View.start (view : View) (w : World) : Execution where
  world := w
  former := view.keyedChildren
  history := view.history

namespace Catalog

variable {catalog : Catalog} {c : Component} {render : Renderer} {view : View} {provided : Provided}
  {w : World}

theorem mem_of_find? {name : String} (found : catalog.find? name = some c) :
    c ∈ catalog.components :=
  List.mem_reverse.mp (List.mem_of_find?_eq_some found)

/-- How the body of a view is executed. -/
def runner (catalog : Catalog) (render : Renderer) (view : View) (provided : Provided)
    (c : Component) : BodyRunner :=
  ⟨c.name, view.fields, catalog.renderChild render (view.provided ++ provided)⟩

theorem renderWith_of_ok {nodes : List ViewNode} {e : Execution}
    (found : catalog.find? view.name = some c) (ran : ((catalog.runner render view provided c).run
      c.render.body).run.run (view.start w) = (.ok nodes, e)) :
    catalog.renderWith render view provided w =
      (.ok (), view.rendered e.children e.history e.activations (.mk c.name [] [] none nodes),
        e.world.dropAll e.former) := by
  unfold runner View.start at ran
  simp only [renderWith, found, ran]

theorem renderWith_of_error {fault : RenderFault} {e : Execution}
    (found : catalog.find? view.name = some c) (ran : ((catalog.runner render view provided c).run
      c.render.body).run.run (view.start w) = (.error fault, e)) :
    catalog.renderWith render view provided w =
      (.error fault, view.withChildren [] e.history, e.world.dropAll (e.former ++ e.children)) := by
  unfold runner View.start at ran
  simp only [renderWith, found, ran]

/-- A rendering that succeeds has executed the body of the component. -/
theorem run_of_renderWith {view' : View} {w' : World}
    (rendered : catalog.renderWith render view provided w = (.ok (), view', w')) :
    ∃ c nodes e, catalog.find? view.name = some c ∧
      ((catalog.runner render view provided c).run c.render.body).run.run (view.start w) =
        (.ok nodes, e) ∧
      view' = view.rendered e.children e.history e.activations (.mk c.name [] [] none nodes) ∧
      w' = e.world.dropAll e.former := by
  cases found : catalog.find? view.name with
  | none =>
    simp only [renderWith, found] at rendered
    cases rendered
  | some c =>
    cases ran : ((catalog.runner render view provided c).run c.render.body).run.run
        (view.start w) with
    | mk outcome e =>
      cases outcome with
      | error fault =>
        rw [renderWith_of_error found ran] at rendered
        cases rendered
      | ok nodes =>
        rw [renderWith_of_ok found ran] at rendered
        cases rendered
        exact ⟨c, nodes, e, rfl, ran, rfl, rfl⟩

end Catalog

/-! ## Children -/

/-- An execution after the child for a marker was rendered. -/
def Execution.withChild (e : Execution) (key : String) (child : View) (w : World)
    (former : List (String × View)) : Execution :=
  { e with
    former
    children := (View.insertChild key child e.children).1
    world := w.dropAll ((View.insertChild key child e.children).2.toList.map (key, ·)) }

namespace Catalog

variable {catalog : Catalog}

/-- How the rendering of the child for a marker begins: with the child that was kept under the key for
    the component and whose arguments are refreshed, or with a new one.  Also the world then and the
    children that remain to be met. -/
inductive Begins (catalog : Catalog) (provided : Provided) (key component : String)
    (bindings : List BoundArgument) (scope : ViewScope) (e : Execution) :
    View → World → List (String × View) → Prop
  | kept {child : View} (found : e.former.lookup key = some child)
      (named : child.name = component) :
      Begins catalog provided key component bindings scope e child
        (e.world.refresh scope child bindings) (e.former.filter (·.1 ≠ key))
  | made {child : View} {w : World}
      (missing : (e.former.lookup key).filter (·.name = component) = none)
      (made : catalog.instantiate component ⟨bindings, scope, provided⟩ e.world = (.ok child, w)) :
      Begins catalog provided key component bindings scope e child w e.former

variable {render : Renderer} {provided : Provided} {key component : String}
  {bindings : List BoundArgument} {scope : ViewScope} {e e' : Execution}

theorem begins_or_fails (catalog : Catalog) (provided : Provided) (key component : String)
    (bindings : List BoundArgument) (scope : ViewScope) (e : Execution) :
    (∃ child w former, catalog.Begins provided key component bindings scope e child w former) ∨
      (e.former.lookup key).filter (·.name = component) = none ∧
        ∃ fault w, catalog.instantiate component ⟨bindings, scope, provided⟩ e.world =
          (.error fault, w) := by
  cases kept : (e.former.lookup key).filter (·.name = component) with
  | some child =>
    obtain ⟨found, named⟩ := Option.filter_eq_some_iff.mp kept
    exact .inl ⟨child, _, _, .kept found (by simpa using named)⟩
  | none =>
    cases made : catalog.instantiate component ⟨bindings, scope, provided⟩ e.world with
    | mk outcome w =>
      cases outcome with
      | ok child => exact .inl ⟨child, w, _, .made kept made⟩
      | error fault => exact .inr ⟨rfl, fault, w, rfl⟩

/-- The child is rendered and put under its key, or dropped if its rendering fails. -/
theorem run_renderChild {child : View} {w : World} {former : List (String × View)}
    (begins : catalog.Begins provided key component bindings scope e child w former) :
    (catalog.renderChild render provided key component bindings scope).run.run e =
      match render child provided w with
      | (.error fault, child, w) => (.error fault, { e with former, world := w.drop child })
      | (.ok (), child, w) =>
        (.ok ((child.tree.map ViewNode.children).getD []), e.withChild key child w former) := by
  have begun : (catalog.child provided key component bindings scope).run.run e =
      (.ok child, { e with world := w, former }) := by
    unfold Catalog.child
    rw [ExecM.run_get_bind]
    cases begins with
    | kept found named => simp only [found, Option.filter_some, named, decide_true, if_true]; rfl
    | made missing made => simp only [missing, made]; rfl
  unfold renderChild
  rw [ExecM.run_bind_ok begun, ExecM.run_get_bind]
  rcases render child provided w with ⟨_ | _, child', w'⟩
  · rfl
  · rfl

theorem run_renderChild_of_fails {fault : RenderFault} {w : World}
    (missing : (e.former.lookup key).filter (·.name = component) = none)
    (failed : catalog.instantiate component ⟨bindings, scope, provided⟩ e.world =
      (.error fault, w)) :
    (catalog.renderChild render provided key component bindings scope).run.run e =
      (.error fault, { e with world := w }) := by
  unfold renderChild Catalog.child
  rw [ExecM.run_bind, ExecM.run_get_bind]
  simp only [missing, failed]
  rfl

theorem renderChild_ok_iff {nodes : List ViewNode} :
    (catalog.renderChild render provided key component bindings scope).run.run e = (.ok nodes, e') ↔
      ∃ child w former child' w', catalog.Begins provided key component bindings scope e child w
          former ∧ render child provided w = (.ok (), child', w') ∧
        nodes = (child'.tree.map ViewNode.children).getD [] ∧
        e' = e.withChild key child' w' former := by
  constructor
  · intro ran
    rcases catalog.begins_or_fails provided key component bindings scope e with
      ⟨child, w, former, begins⟩ | ⟨missing, fault, w, failed⟩
    · rw [run_renderChild begins] at ran
      split at ran
      · cases ran
      next child' w' rendered =>
        cases ran
        exact ⟨child, w, former, child', w', begins, rendered, rfl, rfl⟩
    · rw [run_renderChild_of_fails missing failed] at ran
      cases ran
  · rintro ⟨child, w, former, child', w', begins, rendered, rfl, rfl⟩
    rw [run_renderChild begins, rendered]

end Catalog

end ReactiveView
