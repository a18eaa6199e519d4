import ReactiveView.Proofs.PrintedBodies

/-!
# What lowering accepts

A component that was lowered has bracketed bodies, also if it was written with markers.  So it can be
printed, and rendering it fails at most for lack of a binding: no component of a name, no wrapper of
the parent, no provider.
-/

namespace ReactiveView

/-! ## Faults of rendering -/

/-- A failure for lack of a binding, or because views nest too deep. -/
def RenderFault.IsOfBinding : RenderFault → Prop
  | .fault d => d.fault.rule = .unresolvedBinding
  | .tooDeep => True

/-- A failure for lack of a binding has none of the codes for other rules. -/
theorem RenderFault.IsOfBinding.code {d : Diagnostic} (binding : IsOfBinding (.fault d)) :
    d.report.code ≠ Rule.unbalancedTree.code ∧ d.report.code ≠ Rule.unsupportedNesting.code := by
  have code : d.report.code = Rule.unresolvedBinding.code := congrArg Rule.code binding
  rw [code]
  decide

theorem Site.cell_fault {site : Site} {w : World} {fields : List (String × Reactive.CellId)}
    {field : String} {binding : Option BindingKind} {initializer : Option String} {fault : Fault}
    (failed : site.cell w fields field binding initializer = .error fault) :
    fault.rule = .unresolvedBinding := by
  unfold Site.cell at failed
  split at failed
  · cases failed
  · split at failed <;> cases failed
    rfl
  · split at failed <;> cases failed
    rfl
  · cases failed

theorem Site.cells_fault {site : Site} {w w' : World} {fields provided : List (String × Reactive.CellId)}
    {slots : List (String × Option BindingKind × Option String)} {fault : Fault}
    (failed : site.cells w fields provided slots = (.error fault, w')) :
    fault.rule = .unresolvedBinding := by
  fun_induction Site.cells site w fields provided slots with
  | case1 => cases failed
  | case2 _ _ _ _ _ _ _ _ found =>
    cases failed
    exact cell_fault found
  | case3 _ _ _ _ _ _ _ _ _ _ _ _ ih => exact ih failed
  | case4 _ _ _ _ _ _ _ _ _ _ _ ih => exact ih failed

namespace Catalog

open ExecM (Ends)

variable {catalog : Catalog}

theorem instantiate_fault {name : String} {site : Site} {w w' : World} {fault : RenderFault}
    (failed : catalog.instantiate name site w = (.error fault, w')) : fault.IsOfBinding := by
  unfold instantiate at failed
  split at failed
  · cases failed
    rfl
  · split at failed
    next cells =>
      cases failed
      exact Site.cells_fault cells
    · cases failed

/-- All components can be executed: their render bodies are bracketed. -/
def IsBracketed (catalog : Catalog) : Prop :=
  ∀ c ∈ catalog.components, Stmt.AreBracketed c.render.body

/-- Rendering fails at most for lack of a binding. -/
def LacksBindings (render : Renderer) : Prop :=
  ∀ view provided w fault view' w',
    render view provided w = (.error fault, view', w') → fault.IsOfBinding

/-- No condition is put on children here. -/
theorem allViews_true (e : Execution) : e.AllViews fun _ => True :=
  ⟨fun _ _ => trivial, fun _ _ => trivial⟩

theorem child_ends (provided : Provided) (key component : String) (bindings : List BoundArgument)
    (scope : ViewScope) :
    Ends (fun _ => True) RenderFault.IsOfBinding
      (catalog.child provided key component bindings scope) fun _ => True := by
  intro e _
  unfold child
  rw [ExecM.run_get_bind]
  cases (e.former.lookup key).filter (·.name = component) with
  | some view => exact ⟨_, _, rfl, allViews_true _, .inr ⟨view, rfl, trivial⟩⟩
  | none =>
    cases made : catalog.instantiate component ⟨bindings, scope, provided⟩ e.world with
    | mk result w =>
      simp only
      cases result with
      | error fault =>
        exact ⟨_, _, rfl, allViews_true _, .inl ⟨fault, rfl, instantiate_fault made⟩⟩
      | ok view => exact ⟨_, _, rfl, allViews_true _, .inr ⟨view, rfl, trivial⟩⟩

theorem renderChild_ends {render : Renderer} (lacks : LacksBindings render) (provided : Provided)
    (key component : String) (bindings : List BoundArgument) (scope : ViewScope) :
    Ends (fun _ => True) RenderFault.IsOfBinding
      (catalog.renderChild render provided key component bindings scope) fun _ => True := by
  refine (child_ends provided key component bindings scope).bind fun child _ => ?_
  intro e _
  rw [ExecM.run_get_bind]
  rcases rendered : render child provided e.world with ⟨_ | _, child', w⟩
  · exact ⟨_, _, rfl, allViews_true _, .inl ⟨_, rfl, lacks _ _ _ _ _ _ rendered⟩⟩
  · exact ⟨_, _, rfl, allViews_true _, .inr ⟨_, rfl, trivial⟩⟩

/-- A view of a bracketed component fails only as its children do. -/
theorem renderWith_lacksBindings (bracketed : catalog.IsBracketed) {render : Renderer}
    (lacks : LacksBindings render) : LacksBindings (catalog.renderWith render) := by
  intro view provided w fault view' w' failed
  cases found : catalog.find? view.name with
  | none =>
    simp only [renderWith, found] at failed
    cases failed
    rfl
  | some c =>
    have body := bracketed c (Catalog.mem_of_find? found)
    have ends : Ends (fun _ => True) RenderFault.IsOfBinding
        ((catalog.runner render view provided c).run c.render.body) fun _ => True :=
      BodyRunner.run_ends body.linear
        (fun _ _ bindings _ key _ => renderChild_ends lacks _ key _ bindings _) body.balanced
    obtain ⟨result, e, ran, _, ⟨fault', rfl, lacking⟩ | ⟨nodes, rfl, _⟩⟩ :=
      ends (view.start w) (allViews_true _)
    · rw [renderWith_of_error found ran] at failed
      cases failed
      exact lacking
    · rw [renderWith_of_ok found ran] at failed
      cases failed

theorem render_lacksBindings (bracketed : catalog.IsBracketed) (depth : Nat) :
    LacksBindings (catalog.render depth) := by
  induction depth with
  | zero =>
    intro view provided w fault view' w' failed
    cases failed
    trivial
  | succ depth ih => exact renderWith_lacksBindings bracketed ih

theorem mountTo_fault (bracketed : catalog.IsBracketed) {depth : Nat} {name : String}
    {w w' : World} {fault : RenderFault}
    (failed : catalog.mountTo depth name w = (.error fault, w')) : fault.IsOfBinding := by
  unfold mountTo at failed
  split at failed
  next made =>
    cases failed
    exact instantiate_fault made
  · split at failed
    · cases failed
    next rendered =>
      cases failed
      exact render_lacksBindings bracketed depth _ _ _ _ _ _ rendered

end Catalog

/-! ## Accepted components -/

/-- What lowering accepts is printed, with every block of the code ended where it was started and
    every node popped after what it encloses, and executed: neither mounting nor updating ever meets
    a marker out of order or a form that was not lowered. -/
theorem accepted_isPrinted_and_rendered :
    (∀ (scope : ModuleScope) (c : Component) (out : LoweredComponent),
      scope.lowerComponent c = .ok out →
      ∃ pieces, Printing.componentPieces out.decl = .ok pieces ∧
        out.print = .ok (Printing.render pieces) ∧
        Printing.depthAfter? 0 pieces = some 0 ∧ (Printing.write 0 pieces).2 = 0 ∧
        ∀ body ∈ out.decl.bodies, Printing.IsPrintedIn pieces body) ∧
    ∀ (m : Module) (options : Options) (parser : Script.Parser) (catalog : Catalog),
      (∀ c ∈ catalog.components, ∃ out ∈ (m.lower options parser).lowered, out.decl = c) →
      (∀ depth name w d w', catalog.mountTo depth name w = (.error (.fault d), w') →
        d.report.code ≠ Rule.unbalancedTree.code ∧
          d.report.code ≠ Rule.unsupportedNesting.code) ∧
      ∀ depth view provided w d view' w',
        catalog.render depth view provided w = (.error (.fault d), view', w') →
        d.report.code ≠ Rule.unbalancedTree.code ∧
          d.report.code ≠ Rule.unsupportedNesting.code := by
  constructor
  · intro scope c out lowered
    obtain ⟨pieces, printed, level, bodies⟩ :=
      Printing.componentPieces_print (ModuleScope.bodies_areBracketed lowered)
    have depth : Printing.depthAfter? 0 pieces = some 0 := by
      rw [← List.append_nil pieces, level]
      rfl
    exact ⟨pieces, printed, by rw [LoweredComponent.print, printed], depth,
      Printing.write_depth depth, bodies⟩
  · intro m options parser catalog lowered
    have bracketed : catalog.IsBracketed := by
      intro c member
      obtain ⟨out, isOut, rfl⟩ := lowered c member
      obtain ⟨_, _, accepted⟩ := Module.exists_of_mem_lowered isOut
      exact ModuleScope.bodies_areBracketed accepted _ List.mem_cons_self
    constructor
    · intro depth name w d w' failed
      exact (Catalog.mountTo_fault bracketed failed).code
    · intro depth view provided w d view' w' failed
      exact (Catalog.render_lacksBindings bracketed depth _ _ _ _ _ _ failed).code

/-! A dial whose body is written with markers; its field must be tied to a field of a parent. -/

def markedDial : Component where
  name := "Dial"
  members := [.field { name := "angle", decorator := .link }]
  render := { body := [
    .opening { component := "Stack", role := .element },
    .branch 7 [⟨some "this.angle", 3, [
      .opening { component := "If", role := .arm 7 3 },
      .opening { component := "Text", args := ["this.angle"], role := .element },
      .closing ⟨"Text", none⟩,
      .closing ⟨"If", some 3⟩]⟩] {},
    .closing ⟨"Stack", none⟩] }

theorem accepted_isPrinted_and_rendered_markedDial :
    ∃ out d w', (ModuleScope.of ⟨"", [markedDial]⟩ {}).lowerComponent markedDial = .ok out ∧
      (∃ text, out.print = .ok text) ∧
      (Catalog.ofOutput (Module.lower ⟨"", [markedDial]⟩ {})).mountTo 1 "Dial" {} =
        (.error (.fault d), w') ∧
      d.fault = .noParentWrapper "angle" ∧ d.report.code ≠ Rule.unbalancedTree.code := by
  have accepted : ((ModuleScope.of ⟨"", [markedDial]⟩ {}).lowerComponent markedDial).isOk := by
    decide +kernel
  have failed : (match (Catalog.ofOutput (Module.lower ⟨"", [markedDial]⟩ {})).mountTo 1 "Dial" {}
      with | (.error (.fault d), _) => some d.fault | _ => none) =
      some (.noParentWrapper "angle") := by decide +kernel
  obtain ⟨printed, rendered⟩ := accepted_isPrinted_and_rendered
  cases lowered : (ModuleScope.of ⟨"", [markedDial]⟩ {}).lowerComponent markedDial with
  | error d =>
    rw [lowered] at accepted
    cases accepted
  | ok out =>
    obtain ⟨_, _, text, _⟩ := printed _ _ out lowered
    split at failed
    next d w' mounted =>
      refine ⟨out, d, w', rfl, ⟨_, text⟩, mounted, Option.some.inj failed, ?_⟩
      refine ((rendered ⟨"", [markedDial]⟩ {} Script.parser _ fun c member => ?_).1 _ _ _ d w' mounted).1
      exact List.mem_map.mp member
    · cases failed

end ReactiveView
