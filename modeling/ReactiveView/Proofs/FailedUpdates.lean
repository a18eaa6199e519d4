import ReactiveView.Proofs.AcceptedComponents
import ReactiveView.Proofs.StableUpdates

/-!
# Updates that fail

The body of a lowered component fails only at the marker of a child that cannot be made or rendered.
What has happened until then are the visits before that marker (`BodyRunner.Stops`).  A view whose
update fails keeps the tree, the recorded choices and the count of its last rendering.  Its children
are gone, though, and the conditionals met on the way show the branches that were chosen last.
-/

namespace ReactiveView

open List

theorem ExecM.run_bind_error_iff {α β : Type} {p : ExecM α} {f : α → ExecM β} {e last : Execution}
    {fault : RenderFault} :
    (p >>= f).run.run e = (.error fault, last) ↔ p.run.run e = (.error fault, last) ∨
      ∃ a e', p.run.run e = (.ok a, e') ∧ (f a).run.run e' = (.error fault, last) := by
  rw [run_bind]
  cases ran : p.run.run e with
  | mk result e' =>
    cases result with
    | error fault' =>
      constructor
      · intro failed
        cases failed
        exact .inl rfl
      · rintro (failed | ⟨_, _, ended, _⟩)
        · cases failed
          rfl
        · cases ended
    | ok a =>
      constructor
      · exact fun failed => .inr ⟨a, e', rfl, failed⟩
      · rintro (failed | ⟨_, _, same, failed⟩)
        · cases failed
        · cases same
          exact failed

namespace BodyRunner

variable {x : BodyRunner} {e last : Execution} {fault : RenderFault}

/-! ## Where an execution stops -/

/-- An execution goes by visits to the marker of a child and fails there. -/
inductive Stops (x : BodyRunner) : Execution → List RenderVisit → RenderFault → Execution → Prop
  | child {e e' last : Execution} {before : List RenderVisit} {path : List String} {index : Nat}
      {marker : OpenMarker} {bindings : List BoundArgument} {locals : List (String × Json)}
      {fault : RenderFault} (follows : x.Follows e before e')
      (role : marker.role = .component bindings)
      (failed : (x.child (childKey path index marker.component) marker.component bindings
        ⟨x.fields, locals⟩).run.run e' = (.error fault, last)) :
      Stops x e (before ++ [.child path index marker locals]) fault last

theorem Stops.after {e' : Execution} {first visits : List RenderVisit}
    (follows : x.Follows e first e') (stops : x.Stops e' visits fault last) :
    x.Stops e (first ++ visits) fault last := by
  cases stops with
  | child before role failed =>
    rw [← append_assoc]
    exact .child (follows.append before) role failed

theorem openMarker_stops {pos : Position} {index : Nat} {m : OpenMarker}
    (failed : (x.openMarker pos index m).run.run e = (.error fault, last)) :
    ∃ bindings, m.role = .component bindings ∧
      (x.child (childKey pos.path index m.component) m.component bindings
        ⟨x.fields, pos.locals⟩).run.run e = (.error fault, last) := by
  by_cases role : ∃ bindings, m.role = .component bindings
  · obtain ⟨bindings, role⟩ := role
    unfold openMarker at failed
    rw [ExecM.run_bind_ok (run_evalAll x pos m.args e),
      ExecM.run_bind_ok (run_attributes x pos m.attributes e)] at failed
    simp only [role] at failed
    rcases ExecM.run_bind_error_iff.mp failed with failed | ⟨_, _, _, ended⟩
    · exact ⟨bindings, role, failed⟩
    · cases ended
  · rw [not_exists] at role
    rw [run_openMarker x pos index m e role] at failed
    cases failed

theorem forItems_stops {pos : Position} {params : List String}
    {body : Position → ExecM (List ViewNode)} {visits : Position → Execution → List RenderVisit}
    (goes : ∀ pos e nodes last, (body pos).run.run e = (.ok nodes, last) → x.Follows e (visits pos
      e) last) (stops : ∀ pos e fault last, (body pos).run.run e = (.error fault, last) → x.Stops e
      (visits pos e) fault last) {index : Nat} {items : List Json}
    (failed : (forItems pos params body index items).run.run e = (.error fault, last)) :
    x.Stops e (itemsVisits pos params body visits index items e) fault last := by
  induction items generalizing index e with
  | nil => cases failed
  | cons item items ih =>
    unfold itemsVisits
    dsimp only [itemStep]
    rcases ExecM.run_bind_error_iff.mp failed with failed | ⟨nodes, e', ran, failed⟩
    · simp only [failed, append_nil]
      exact stops _ _ _ _ failed
    · simp only [ran]
      refine .after (goes _ _ _ _ ran) ?_
      rcases ExecM.run_bind_error_iff.mp failed with failed | ⟨_, _, _, ended⟩
      · exact ih failed
      · cases ended

theorem ends_of_any {α : Type} (p : ExecM α) :
    ExecM.Ends (fun _ => True) (fun _ => True) p fun _ => True := by
  intro e _
  have every (e : Execution) : e.AllViews fun _ => True := Catalog.allViews_true e
  cases ran : p.run.run e with
  | mk result e' => cases result <;> exact ⟨_, e', rfl, every e', by simp⟩

-- The check and the execution have the same markers open (`stmt_ends`), so that a close marker never
-- fails and what is left are the children.
mutual

theorem stmt_stops : ∀ (s : Stmt) (pos : Position) (outer : Option (List Json)) (index : Nat)
    (opened : List OpenNode) (nodes : List ViewNode) (b : Balance) (e : Execution)
    (fault : RenderFault) (last : Execution), s.isLinear = true →
    (Balance.stmt (opened.map OpenNode.key) b s).2.faults = [] →
    (x.stmt pos outer index opened nodes s).run.run e = (.error fault, last) →
    x.Stops e (x.stmtVisits pos outer index opened s e) fault last
  | .opening m, _, _, _, _, _, _, _, _, _, _, _, failed => by
    rw [stmt] at failed
    rcases ExecM.run_bind_error_iff.mp failed with failed | ⟨_, _, _, ended⟩
    · obtain ⟨bindings, role, failed⟩ := openMarker_stops failed
      simp only [stmtVisits, role]
      exact .after .nil (.child .nil role failed)
    · cases ended
  | .closing m, _, _, _, opened, nodes, _, e, _, _, _, clear, failed => by
    have ends : ExecM.Ends (fun _ => True) (fun _ => False) (x.closeMarker m opened nodes) _ :=
      closeMarker_ends clear
    obtain ⟨_, _, ran, _, ⟨_, _, isAllowed⟩ | ⟨_, rfl, _⟩⟩ := ends e (Catalog.allViews_true e)
    · exact isAllowed.elim
    · rw [stmt, ran] at failed
      cases failed
  | .branch site arms location, pos, outer, index, opened, nodes, b, e, fault, last, linear, clear,
    failed => by
    have inner := arm_stops arms
    rw [run_stmt_branch] at failed
    rw [stmtVisits]
    cases which : chosen (x.holds pos.locals e.world) 0 arms with
    | none =>
      rw [which] at failed
      cases failed
    | some choice =>
      rw [which] at failed
      rcases ExecM.run_bind_error_iff.mp failed with failed | ⟨_, _, _, ended⟩
      · exact .after (.choice rfl .nil) (inner _ _ _ b _ _ _ linear clear failed)
      · cases ended
  | .items params keyGenerator body, pos, outer, index, opened, nodes, b, e, fault, last, linear,
    clear, failed => by
    have inner := block_stops body
    rw [stmt] at failed
    simp only [stmtVisits]
    rcases ExecM.run_bind_error_iff.mp failed with failed | ⟨_, _, _, ended⟩
    · refine .after (.loop .nil) (forItems_stops ?_ ?_ failed)
      · exact fun pos e nodes last ran => (blockVisits_spec body pos _ 0 [] [] e nodes last ran).1
      · exact fun pos e fault last failed => inner pos _ 0 [] [] b e fault last linear clear failed
    · cases ended
  | .code _ _, _, _, _, _, _, _, _, _, _, _, _, failed => by
    rw [stmt] at failed
    cases failed
  | .element _ _, _, _, _, _, _, _, _, _, _, linear, _, _
  | .choice _ _, _, _, _, _, _, _, _, _, _, linear, _, _
  | .forEach _ _, _, _, _, _, _, _, _, _, _, linear, _, _ => by simp [Stmt.isLinear] at linear

theorem block_stops : ∀ (stmts : List Stmt) (pos : Position) (outer : Option (List Json))
    (index : Nat) (opened : List OpenNode) (nodes : List ViewNode) (b : Balance) (e : Execution)
    (fault : RenderFault) (last : Execution), Stmt.areLinear stmts = true →
    (Balance.block (opened.map OpenNode.key) b stmts).faults = [] →
    (x.block pos outer index opened nodes stmts).run.run e = (.error fault, last) →
    x.Stops e (x.blockVisits pos outer index opened nodes stmts e) fault last
  | [], _, _, _, opened, _, _, _, _, _, _, clear, failed => by
    cases opened with
    | nil =>
      rw [block] at failed
      cases failed
    | cons frame opened => simp [Balance.block, Balance.fail] at clear
  | s :: rest, pos, outer, index, opened, nodes, b, e, _, _, linear, clear, failed => by
    have first := stmt_stops s
    have others := block_stops rest
    simp only [Stmt.areLinear, Bool.and_eq_true] at linear
    simp only [Balance.block] at clear
    have clearFirst := Balance.faults_of_block rest _ _ clear
    rw [block] at failed
    rw [blockVisits]
    rcases ExecM.run_bind_error_iff.mp failed with failed | ⟨⟨opened', nodes'⟩, e', ran, failed⟩
    · simp only [failed, append_nil]
      exact first _ _ _ _ _ b _ _ _ linear.1 clearFirst failed
    · -- the statement has left the markers open that the check has left open
      have ends := stmt_ends s pos outer index opened nodes b linear.1
        (fun m _ bindings _ key locals => ends_of_any
          (x.child key m.component bindings ⟨x.fields, locals⟩)) clearFirst
      obtain ⟨_, _, ran', _, ⟨_, rfl, _⟩ | ⟨_, rfl, same⟩⟩ := ends e (Catalog.allViews_true e)
      · cases ran.symm.trans ran'
      · cases ran.symm.trans ran'
        rw [← same] at clear
        simp only [ran]
        exact .after (stmtVisits_spec s _ _ _ _ _ _ _ _ ran).1
          (others _ _ _ _ _ _ _ _ _ linear.2 clear failed)

theorem arm_stops : ∀ (arms : List (BranchArm Stmt)) (pos : Position) (outer : Option (List Json))
    (position : Nat) (b : Balance) (e : Execution) (fault : RenderFault) (last : Execution),
    Stmt.areLinearBranches arms = true → (Balance.branchArms b arms).faults = [] →
    (x.arm pos outer position arms).run.run e = (.error fault, last) →
    x.Stops e (x.armVisits pos outer position arms e) fault last
  | [], _, _, _, _, _, _, _, _, _, failed => by
    rw [arm] at failed
    cases failed
  | ⟨condition, branchId, body⟩ :: rest, pos, outer, position, b, e, fault, last, linear, clear,
    failed => by
    have first := block_stops body
    have others := arm_stops rest
    simp only [Stmt.areLinearBranches, Bool.and_eq_true] at linear
    simp only [Balance.branchArms] at clear
    cases position with
    | zero =>
      rw [arm] at failed
      rw [armVisits]
      exact first _ _ _ [] _ b _ _ _ linear.1 (Balance.faults_of_branchArms rest _ clear) failed
    | succ position =>
      rw [arm] at failed
      rw [armVisits]
      exact others _ _ _ _ _ _ _ linear.2 clear failed

end

/-- A bracketed body fails at the marker of a child, after the visits before it. -/
theorem run_stops {body : List Stmt} (bracketed : Stmt.AreBracketed body)
    (failed : (x.run body).run.run e = (.error fault, last)) :
    x.Stops e (x.visits body e) fault last :=
  block_stops body {} none 0 [] [] {} e fault last bracketed.linear bracketed.balanced failed

end BodyRunner

namespace Catalog

variable {catalog : Catalog} {render : Renderer} {provided : Provided} {fault : RenderFault}

theorem history_of_renderChild {key component : String} {bindings : List BoundArgument}
    {scope : ViewScope} {e last : Execution} (failed : (catalog.renderChild render provided key
      component bindings scope).run.run e = (.error fault, last)) : last.history = e.history := by
  rcases catalog.begins_or_fails provided key component bindings scope e with
    ⟨child, w, former, begins⟩ | ⟨missing, fault', w, unmade⟩
  · rw [run_renderChild begins] at failed
    split at failed <;> cases failed
    rfl
  · rw [run_renderChild_of_fails missing unmade] at failed
    cases failed
    rfl

theorem history_of_stops {v : View} {c : Component} {e last : Execution} {visits : List RenderVisit}
    (stops : (catalog.runner render v provided c).Stops e visits fault last) :
    last.history = (e.history.record (choices visits)).2 := by
  cases stops with
  | child follows role failed =>
    have unchosen (path : List String) (index : Nat) (marker : OpenMarker)
        (locals : List (String × Json)) (before : List RenderVisit) :
        choices (before ++ [.child path index marker locals]) = choices before := by
      simp [choices, RenderVisit.chosen?]
    rw [unchosen, history_of_renderChild failed, (record_of_follows follows).2]

theorem isBracketed_ofOutput (m : Module) (options : Options) (parser : Script.Parser) :
    (ofOutput (m.lower options parser)).IsBracketed := by
  intro c member
  obtain ⟨out, isOut, rfl⟩ := mem_map.mp member
  obtain ⟨_, _, accepted⟩ := Module.exists_of_mem_lowered isOut
  exact ModuleScope.bodies_areBracketed accepted _ mem_cons_self

theorem renderWith_failed (bracketed : catalog.IsBracketed) {v v' : View} {w w' : World}
    {c : Component} (found : catalog.find? v.name = some c)
    (failed : catalog.renderWith render v provided w = (.error fault, v', w')) :
    ∃ visits last, (catalog.runner render v provided c).Stops (v.start w) visits fault last ∧
      v' = v.withChildren [] (v.history.record (choices visits)).2 := by
  have body := bracketed c (Catalog.mem_of_find? found)
  cases ran : ((catalog.runner render v provided c).run c.render.body).run.run (v.start w) with
  | mk outcome last =>
    cases outcome with
    | ok nodes =>
      rw [renderWith_of_ok found ran] at failed
      cases failed
    | error fault' =>
      rw [renderWith_of_error found ran] at failed
      cases failed
      have stops := BodyRunner.run_stops body ran
      refine ⟨_, last, stops, ?_⟩
      rw [history_of_stops stops]
      rfl

/-- An update that fails keeps the tree, the recorded choices and the count of the last rendering.  If
    it has come to execute the body of the view, the children are gone, and each conditional that it
    met shows the branch chosen there last.  So the view is as before only if it had no children and
    the conditionals show what they showed. -/
theorem update_failed {m : Module} {options : Options} {parser : Script.Parser} {v v' : View}
    {w w' : World} {fault : RenderFault}
    (failed : (ofOutput (m.lower options parser)).update v w = (.error fault, v', w')) :
    v'.tree = v.tree ∧ v'.activations = v.activations ∧ v'.renders = v.renders ∧
      ((ofOutput (m.lower options parser)).find? v.name = none → v' = v) ∧
      ∀ c, (ofOutput (m.lower options parser)).find? v.name = some c → ∃ visits last,
        ((ofOutput (m.lower options parser)).runner
          ((ofOutput (m.lower options parser)).render (depthLimit - 1)) v [] c).Stops
            (v.start w) visits fault last ∧
        v'.keyedChildren = [] ∧
        (∀ site, v'.activeBranch? site =
          ((choices visits).reverse.lookup site).getD (v.activeBranch? site)) ∧
        ((v'.keyedChildren = v.keyedChildren ∧
            ∀ site, v'.activeBranch? site = v.activeBranch? site) ↔
          v.keyedChildren = [] ∧ ∀ site branch,
            (choices visits).reverse.lookup site = some branch → branch = v.activeBranch? site) := by
  change (ofOutput (m.lower options parser)).renderWith _ v [] w = _ at failed
  cases found : (ofOutput (m.lower options parser)).find? v.name with
  | none =>
    simp only [renderWith, found] at failed
    cases failed
    refine ⟨rfl, rfl, rfl, fun _ => rfl, ?_⟩
    intro c isFound
    cases isFound
  | some c =>
    obtain ⟨visits, last, stops, rfl⟩ :=
      renderWith_failed (isBracketed_ofOutput m options parser) found failed
    -- a site that was not met shows the branch of the last rendering
    have shows (site : UInt32) :
        (v.withChildren [] (v.history.record (choices visits)).2).activeBranch? site =
          ((choices visits).reverse.lookup site).getD (v.activeBranch? site) := by
      change ((v.history.record (choices visits)).2.choices.lookup site).join = _
      rw [BranchHistory.lookup_record]
      cases (choices visits).reverse.lookup site <;> rfl
    refine ⟨rfl, rfl, rfl, fun missing => (Option.some_ne_none c missing).elim, ?_⟩
    rintro _ ⟨⟩
    refine ⟨visits, last, stops, rfl, shows, ?_⟩
    simp only [shows]
    refine and_congr eq_comm (forall_congr' fun site => ?_)
    cases (choices visits).reverse.lookup site with
    | none => simp
    | some branch => simp

end Catalog

/-! A page that keeps a counter and, when it is switched on, shows a panel that was not lowered. -/

namespace SwitchedPage

def counter : Component where
  name := "Counter"
  members := [.field { name := "count", decorator := .state, initializer := some "0" }]
  render := { body := [.element { name := "Text", args := [{ value := "this.count" }] } []] }

/-- A provided field needs an initializer. -/
def panel : Component where
  name := "Panel"
  members := [.field { name := "theme", decorator := .provide none }]
  render := { body := [] }

def page : Component where
  name := "Page"
  isEntry := true
  members := [.field { name := "on", decorator := .state, initializer := some "false" }]
  render := { body := [
    .element { name := "Counter" } [],
    .choice [⟨some "this.on", [.element { name := "Panel" } []]⟩] {}] }

def file : Module := ⟨"page.ets", [page, counter, panel]⟩

/-- The page after it was mounted, the counter set, and the page switched on. -/
def switched : Except ViewFault ViewSession := do
  let (_, s) ← (ViewSession.mount { catalog := .ofOutput (file.lower {}) } "Page").2.set
    [.name "Counter"] "count" (.num (.int 5))
  let (_, s) ← s.set [] "on" (.bool true)
  return s

theorem reached_switched {s : ViewSession} (ran : switched = .ok s) :
    ViewSession.Reached (.ofOutput (file.lower {})) s := by
  obtain ⟨⟨_, first⟩, counted, ran⟩ := except_bind_ok_iff.mp ran
  obtain ⟨⟨_, second⟩, turned, same⟩ := except_bind_ok_iff.mp ran
  cases same
  exact .step (.step (.step .start (.mount "Page")) (.set counted)) (.set turned)

theorem exists_update_fails :
    ∃ s v d v' w', switched = .ok s ∧ s.root = some v ∧
      (Catalog.ofOutput (file.lower {})).update v s.world = (.error (.fault d), v', w') ∧
      d.fault = .unknownComponent "Panel" ∧ v.children.map (·.name) = ["Counter"] ∧
      v.activeBranch? 0 = none ∧ v'.keyedChildren.length = 0 ∧ v'.activeBranch? 0 = some 0 := by
  have facts : switched.toOption.bind (fun s => s.root.bind fun v =>
      match (Catalog.ofOutput (file.lower {})).update v s.world with
      | (.error (.fault d), v', _) => some (d.fault, v.children.map (·.name), v.activeBranch? 0,
          v'.keyedChildren.length, v'.activeBranch? 0)
      | _ => none) = some (.unknownComponent "Panel", ["Counter"], none, 0, some 0) := by
    decide +kernel
  obtain ⟨s, ran, facts⟩ := Option.bind_eq_some_iff.mp facts
  obtain ⟨v, isRoot, facts⟩ := Option.bind_eq_some_iff.mp facts
  split at facts
  next d v' w' failed =>
    simp only [Option.some.injEq, Prod.mk.injEq] at facts
    cases same : switched with
    | error fault =>
      rw [same] at ran
      cases ran
    | ok s' =>
      rw [same] at ran
      cases ran
      exact ⟨s, v, d, v', w', rfl, isRoot, failed, facts⟩
  · cases facts

end SwitchedPage

theorem Catalog.update_failed_switchedPage :
    ∃ s v d v' w', SwitchedPage.switched = .ok s ∧ s.root = some v ∧
      (ofOutput (SwitchedPage.file.lower {})).update v s.world = (.error (.fault d), v', w') ∧
      v'.tree = v.tree ∧ v'.activations = v.activations ∧ v'.renders = v.renders ∧
      ∃ c visits last, (ofOutput (SwitchedPage.file.lower {})).find? v.name = some c ∧
        ((ofOutput (SwitchedPage.file.lower {})).runner
          ((ofOutput (SwitchedPage.file.lower {})).render (depthLimit - 1)) v [] c).Stops
          (v.start s.world) visits (.fault d) last ∧
        (choices visits).reverse.lookup 0 = some (some 0) := by
  obtain ⟨s, v, d, v', w', ran, isRoot, failed, _, _, shown, _, shows⟩ :=
    SwitchedPage.exists_update_fails
  obtain ⟨tree, activations, renders, unknown, known⟩ := update_failed failed
  cases found : (ofOutput (SwitchedPage.file.lower {})).find? v.name with
  | none =>
    rw [unknown found, shown] at shows
    cases shows
  | some c =>
    obtain ⟨visits, last, stops, _, branches, _⟩ := known c found
    refine ⟨s, v, d, v', w', ran, isRoot, failed, tree, activations, renders, c, visits, last, found,
      stops, ?_⟩
    -- the conditional showed nothing before, so the branch that it shows was chosen
    have chosen := branches 0
    rw [shown, shows] at chosen
    cases last : (choices visits).reverse.lookup 0 with
    | none =>
      rw [last] at chosen
      cases chosen
    | some branch =>
      rw [last] at chosen
      exact congrArg some chosen.symm

/-- A page is mounted and switched on, and the update fails since the panel was not lowered.  Before,
    the page has a counter and its conditional shows no branch; afterwards it has no child, and the
    conditional shows the branch of the panel, which is not in the tree. -/
theorem SwitchedPage.update_loses_counter :
    ∃ s v d v' w', ViewSession.Reached (.ofOutput (file.lower {})) s ∧ s.root = some v ∧
      (Catalog.ofOutput (file.lower {})).update v s.world = (.error (.fault d), v', w') ∧
      v.children.map (·.name) = ["Counter"] ∧ v'.children.map (·.name) = [] ∧
      v.activeBranch? 0 = none ∧ v'.activeBranch? 0 = some 0 := by
  obtain ⟨s, v, d, v', w', ran, isRoot, failed, _, children, shown, lost, shows⟩ :=
    exists_update_fails
  refine ⟨s, v, d, v', w', reached_switched ran, isRoot, failed, children, ?_, shown, shows⟩
  rw [View.children, length_eq_zero_iff.mp lost, map_nil, map_nil]

end ReactiveView
