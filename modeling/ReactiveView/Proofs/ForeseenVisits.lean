import ReactiveView.Proofs.MirroredExecutions
import ReactiveView.Proofs.MountedTrees

/-!
# Visits that are foreseen

Which visits the execution of a body has can be told from the values of the fields alone, without
rendering a child (`Foreseen.block`), as long as the fields keep these values while the body is
executed (`BodyRunner.visits_eq_foreseen`).  So a view and a world determine the calls of children
(`View.calls`).
-/

namespace ReactiveView

open List
open Reactive (CellId)

/-! ## Visits from the values of fields -/

namespace Foreseen

/-- The items of a marker that begins a loop. -/
def items? (scope : ViewScope) (w : World) (m : OpenMarker) : Option (List Json) :=
  if m.role = .loop then some (BodyRunner.itemsOf (m.args.map (scope.eval w))) else none

/-- The items of the open markers of a block after a statement, innermost first. -/
def opened (scope : ViewScope) (w : World) (loops : List (Option (List Json))) :
    Stmt → List (Option (List Json))
  | .opening marker => items? scope w marker :: loops
  | .closing _ => loops.tail
  | _ => loops

/-- The visits for the items of a loop, given those for one item. -/
def each (pos : Position) (params : List String) (visits : Position → List RenderVisit)
    (index : Nat) : List Json → List RenderVisit
  | [] => []
  | item :: rest =>
    visits
        { path := pos.path ++ [itemStep index]
          locals := BodyRunner.itemNames params item index ++ pos.locals } ++
      each pos params visits (index + 1) rest

mutual

/-- The visits of the rest of a block.  `outer` are the items of the marker around the block, `loops`
    those of its open markers. -/
def block (fields : List (String × CellId)) (w : World) (pos : Position)
    (outer : Option (List Json)) (index : Nat) (loops : List (Option (List Json))) :
    List Stmt → List RenderVisit
  | [] => []
  | s :: rest =>
    stmt fields w pos outer index loops s ++
      block fields w pos outer (index + 1) (opened ⟨fields, pos.locals⟩ w loops s) rest

/-- The visits of a statement. -/
def stmt (fields : List (String × CellId)) (w : World) (pos : Position)
    (outer : Option (List Json)) (index : Nat) (loops : List (Option (List Json))) :
    Stmt → List RenderVisit
  | .opening marker =>
    match marker.role with
    | .component _ => [.child pos.path index marker pos.locals]
    | _ => []
  | .branch site arms _ =>
    let chosen := BodyRunner.chosen
      (fun code => (ViewScope.eval ⟨fields, pos.locals⟩ w code).truthy) 0 arms
    .choice site chosen ::
      match chosen with
      | none => []
      | some (position, branchId) =>
        arm fields w { pos with path := pos.path ++ [armStep site branchId] } (loops.headD outer)
          position arms
  | .items params _ body =>
    let items := loops.headD outer
    .loop (items.getD []).length ::
      each pos params (fun pos => block fields w pos items 0 [] body) 0 (items.getD [])
  | .closing _ | .code _ _ | .element _ _ | .choice _ _ | .forEach _ _ => []

/-- The visits of the arm at a position. -/
def arm (fields : List (String × CellId)) (w : World) (pos : Position)
    (outer : Option (List Json)) (position : Nat) : List (BranchArm Stmt) → List RenderVisit
  | [] => []
  | ⟨_, _, body⟩ :: rest =>
    match position with
    | 0 => block fields w pos outer 0 [] body
    | position + 1 => arm fields w pos outer position rest

end

theorem exists_of_mem_each {pos : Position} {params : List String}
    {visits : Position → List RenderVisit} {visit : RenderVisit} {index : Nat} {items : List Json}
    (member : visit ∈ each pos params visits index items) : ∃ pos, visit ∈ visits pos := by
  induction items generalizing index with
  | nil => exact absurd member not_mem_nil
  | cons item items ih =>
    rcases mem_append.mp member with here | later
    · exact ⟨_, here⟩
    · exact ih later

section

variable {fields : List (String × CellId)} {w : World} {path : List String} {position : Nat}
  {marker : OpenMarker} {locals : List (String × Json)}

mutual

/-- The children of a body are met at its markers. -/
theorem mem_openingsAll : ∀ (stmts : List Stmt) (pos : Position) (outer : Option (List Json))
    (index : Nat) (loops : List (Option (List Json))),
    .child path position marker locals ∈ block fields w pos outer index loops stmts →
    marker ∈ Stmt.openingsAll stmts
  | [], _, _, _, _, member => by
    rw [block] at member
    exact absurd member not_mem_nil
  | s :: rest, _, _, _, _, member => by
    rw [block, mem_append] at member
    rw [Stmt.openingsAll, mem_append]
    exact member.imp (mem_openings s _ _ _ _) (mem_openingsAll rest _ _ _ _)

theorem mem_openings : ∀ (s : Stmt) (pos : Position) (outer : Option (List Json)) (index : Nat)
    (loops : List (Option (List Json))),
    .child path position marker locals ∈ stmt fields w pos outer index loops s →
    marker ∈ s.openings
  | .opening m, _, _, _, _, member => by
    rw [stmt] at member
    rw [Stmt.openings, mem_singleton]
    split at member
    · cases mem_singleton.mp member
      rfl
    · exact absurd member not_mem_nil
  | .branch site arms location, _, _, _, _, member => by
    have below := mem_openingsBranches arms
    rw [stmt] at member
    rw [Stmt.openings]
    have inArm := mem_of_ne_of_mem RenderVisit.noConfusion member
    split at inArm
    · exact absurd inArm not_mem_nil
    · exact below _ _ _ inArm
  | .items params keyGenerator body, pos, _, _, _, member => by
    have below := mem_openingsAll body
    rw [stmt] at member
    rw [Stmt.openings]
    obtain ⟨pos, inBody⟩ :=
      exists_of_mem_each (mem_of_ne_of_mem RenderVisit.noConfusion member)
    exact below _ _ _ _ inBody
  | .closing _, pos, outer, index, loops, member
  | .code _ _, pos, outer, index, loops, member
  | .element _ _, pos, outer, index, loops, member
  | .choice _ _, pos, outer, index, loops, member
  | .forEach _ _, _, _, _, _, member => by
    rw [stmt] at member
    exact absurd member not_mem_nil

theorem mem_openingsBranches : ∀ (arms : List (BranchArm Stmt)) (pos : Position)
    (outer : Option (List Json)) (index : Nat),
    .child path position marker locals ∈ arm fields w pos outer index arms →
    marker ∈ Stmt.openingsBranches arms
  | [], _, _, _, member => by
    rw [arm] at member
    exact absurd member not_mem_nil
  | ⟨condition, _, body⟩ :: rest, _, _, index, member => by
    have here := mem_openingsAll body
    have later := mem_openingsBranches rest
    rw [Stmt.openingsBranches, mem_append]
    cases index with
    | zero =>
      rw [arm] at member
      exact .inl (here _ _ _ _ member)
    | succ index =>
      rw [arm] at member
      exact .inr (later _ _ _ member)

end

end

end Foreseen

/-! ## Executions whose fields keep their values -/

namespace BodyRunner

variable {x : BodyRunner} {w : World} {e last : Execution} {visits these others : List RenderVisit}

/-- Along some visits the fields have the values that they have in a world. -/
def Steady (x : BodyRunner) (w : World) (e : Execution) (visits : List RenderVisit) : Prop :=
  ∀ before after e', visits = before ++ after → x.Follows e before e' →
    ∀ entry ∈ x.fields, e'.world.store.value entry.2 = w.store.value entry.2

theorem Steady.values (steady : x.Steady w e visits) :
    ∀ entry ∈ x.fields, e.world.store.value entry.2 = w.store.value entry.2 :=
  steady [] visits e rfl .nil

theorem Steady.begin (steady : x.Steady w e (these ++ others)) : x.Steady w e these := by
  intro before after e' split follows
  refine steady before (after ++ others) e' ?_ follows
  rw [split, append_assoc]

theorem Steady.rest (steady : x.Steady w e (these ++ others)) (follows : x.Follows e these last) :
    x.Steady w last others := by
  intro before after e' split later
  refine steady (these ++ before) after e' ?_ (follows.append later)
  rw [split, append_assoc]

theorem currentItems_eq (outer : Option (List Json)) (opened : List OpenNode) :
    currentItems outer opened = (opened.map (·.items)).headD outer := by
  cases opened <;> rfl

theorem map_items_addNodes (added : List ViewNode) (opened : List OpenNode) (nodes : List ViewNode) :
    (addNodes added opened nodes).1.map (·.items) = opened.map (·.items) := by
  cases opened <;> rfl

theorem items_plainNode (x : BodyRunner) (pos : Position) {w : World}
    (values : ∀ entry ∈ x.fields, e.world.store.value entry.2 = w.store.value entry.2)
    (m : OpenMarker) :
    (x.plainNode pos e.world m).items = Foreseen.items? ⟨x.fields, pos.locals⟩ w m := by
  rw [plainNode_congr values]
  rfl

theorem itemsVisits_eq {pos : Position} {params : List String}
    {body : Position → ExecM (List ViewNode)} {visits : Position → Execution → List RenderVisit}
    {foreseen : Position → List RenderVisit}
    (one : ∀ pos e nodes last, (body pos).run.run e = (.ok nodes, last) →
      x.Follows e (visits pos e) last ∧
        (x.Steady w e (visits pos e) → visits pos e = foreseen pos))
    {index : Nat} {items : List Json} {e last : Execution} {nodes : List ViewNode}
    (ran : (forItems pos params body index items).run.run e = (.ok nodes, last))
    (steady : x.Steady w e (itemsVisits pos params body visits index items e)) :
    itemsVisits pos params body visits index items e =
      Foreseen.each pos params foreseen index items := by
  induction items generalizing index e nodes with
  | nil => rfl
  | cons item items ih =>
    obtain ⟨nodes', e', head, ran⟩ := ExecM.run_bind_ok_iff.mp ran
    obtain ⟨_, _, tail, ended⟩ := ExecM.run_bind_ok_iff.mp ran
    cases ended
    unfold itemsVisits at steady ⊢
    dsimp only [itemStep] at steady ⊢
    rw [head] at steady ⊢
    dsimp only at steady ⊢
    obtain ⟨follows, same⟩ := one _ _ _ _ head
    rw [same steady.begin, ih tail (steady.rest follows)]
    rfl

mutual

theorem stmtVisits_eq : ∀ (s : Stmt) (pos : Position) (outer : Option (List Json)) (index : Nat)
    (opened : List OpenNode) (nodes : List ViewNode) (e : Execution)
    (after : List OpenNode × List ViewNode) (last : Execution),
    (x.stmt pos outer index opened nodes s).run.run e = (.ok after, last) →
    x.Steady w e (x.stmtVisits pos outer index opened s e) →
    x.stmtVisits pos outer index opened s e =
        Foreseen.stmt x.fields w pos outer index (opened.map (·.items)) s ∧
      after.1.map (·.items) =
        Foreseen.opened ⟨x.fields, pos.locals⟩ w (opened.map (·.items)) s
  | .opening marker, pos, _, index, opened, _, e, _, _, ran, steady => by
    rw [stmt] at ran
    obtain ⟨frame, e', begun, ended⟩ := ExecM.run_bind_ok_iff.mp ran
    cases ended
    rw [stmtVisits, Foreseen.stmt, Foreseen.opened, map_cons,
      ← items_plainNode x pos steady.values]
    by_cases role : ∃ bindings, marker.role = .component bindings
    · obtain ⟨bindings, role⟩ := role
      obtain ⟨children, _, rfl⟩ := (openMarker_component_iff role).mp begun
      exact ⟨rfl, rfl⟩
    · rw [not_exists] at role
      rw [run_openMarker x pos index marker e role] at begun
      cases begun
      exact ⟨rfl, rfl⟩
  | .closing marker, _, _, _, _, _, _, _, _, ran, _ => by
    rw [stmt] at ran
    obtain ⟨_, opened, rfl, _, _, rfl, _⟩ := (closeMarker_ok_iff x).mp ran
    exact ⟨rfl, map_items_addNodes _ opened _⟩
  | .branch site arms location, pos, _, _, opened, nodes, e, _, _, ran, steady => by
    have each := armVisits_eq arms
    rw [run_stmt_branch] at ran
    -- the conditions have the same truth values, so the same arm is chosen
    have holds : x.holds pos.locals e.world =
        fun code => (ViewScope.eval ⟨x.fields, pos.locals⟩ w code).truthy :=
      holds_congr steady.values pos.locals
    rw [stmtVisits] at steady ⊢
    rw [Foreseen.stmt, ← holds, ← currentItems_eq]
    cases which : chosen (x.holds pos.locals e.world) 0 arms with
    | none =>
      rw [which] at ran
      cases ran
      exact ⟨rfl, rfl⟩
    | some choice =>
      rw [which] at ran steady
      obtain ⟨added, e', inner, ended⟩ := ExecM.run_bind_ok_iff.mp ran
      cases ended
      have whole : x.Steady w e ([.choice site (some choice)] ++ _) := steady
      have steady := whole.rest (.choice rfl .nil)
      exact ⟨congrArg (_ :: ·) (each _ _ _ _ _ _ inner steady),
        map_items_addNodes added opened nodes⟩
  | .items params keyGenerator body, pos, _, _, opened, nodes, e, _, last, ran, steady => by
    have each := blockVisits_eq body
    rw [stmt] at ran
    obtain ⟨added, e', inner, ended⟩ := ExecM.run_bind_ok_iff.mp ran
    cases ended
    rw [stmtVisits] at steady ⊢
    rw [Foreseen.stmt, ← currentItems_eq]
    have whole : x.Steady w e ([.loop _] ++ _) := steady
    have steady := whole.rest (.loop .nil)
    refine ⟨congrArg (_ :: ·) (itemsVisits_eq (fun pos e nodes last ran => ?_) inner steady),
      map_items_addNodes added opened nodes⟩
    exact ⟨(blockVisits_spec body pos _ 0 [] [] e nodes last ran).1,
      each pos _ 0 [] [] e nodes last ran⟩
  | .code _ _, _, _, _, _, _, _, _, _, ran, _ => by
    rw [stmt] at ran
    cases ran
    exact ⟨rfl, rfl⟩
  | .element _ _, _, _, _, _, _, _, _, _, ran, _
  | .choice _ _, _, _, _, _, _, _, _, _, ran, _
  | .forEach _ _, _, _, _, _, _, _, _, _, ran, _ => by
    rw [stmt] at ran
    cases ran

theorem blockVisits_eq : ∀ (stmts : List Stmt) (pos : Position) (outer : Option (List Json))
    (index : Nat) (opened : List OpenNode) (nodes : List ViewNode) (e : Execution)
    (after : List ViewNode) (last : Execution),
    (x.block pos outer index opened nodes stmts).run.run e = (.ok after, last) →
    x.Steady w e (x.blockVisits pos outer index opened nodes stmts e) →
    x.blockVisits pos outer index opened nodes stmts e =
      Foreseen.block x.fields w pos outer index (opened.map (·.items)) stmts
  | [], _, _, _, _, _, _, _, _, _, _ => by
    rw [blockVisits, Foreseen.block]
  | s :: rest, _, _, _, _, _, _, _, _, ran, steady => by
    have head := stmtVisits_eq s
    have tail := blockVisits_eq rest
    rw [block] at ran
    obtain ⟨⟨opened', nodes'⟩, e', here, later⟩ := ExecM.run_bind_ok_iff.mp ran
    rw [blockVisits, here] at steady ⊢
    dsimp only at steady ⊢
    have follows := (stmtVisits_spec s _ _ _ _ _ _ _ _ here).1
    obtain ⟨same, loops⟩ := head _ _ _ _ _ _ _ _ here steady.begin
    dsimp only at loops
    rw [Foreseen.block, same, tail _ _ _ _ _ _ _ _ later (steady.rest follows), loops]

theorem armVisits_eq : ∀ (arms : List (BranchArm Stmt)) (pos : Position)
    (outer : Option (List Json)) (position : Nat) (e : Execution) (nodes : List ViewNode)
    (last : Execution), (x.arm pos outer position arms).run.run e = (.ok nodes, last) →
    x.Steady w e (x.armVisits pos outer position arms e) →
    x.armVisits pos outer position arms e = Foreseen.arm x.fields w pos outer position arms
  | [], _, _, _, _, _, _, _, _ => by
    rw [armVisits, Foreseen.arm]
  | ⟨condition, _, body⟩ :: rest, _, _, position, _, _, _, ran, steady => by
    have here := blockVisits_eq body
    have later := armVisits_eq rest
    cases position with
    | zero =>
      rw [arm] at ran
      rw [armVisits] at steady ⊢
      rw [Foreseen.arm]
      exact here _ _ _ _ _ _ _ _ ran steady
    | succ position =>
      rw [arm] at ran
      rw [armVisits] at steady ⊢
      rw [Foreseen.arm]
      exact later _ _ _ _ _ _ ran steady

end

/-- The visits of a body are those that the values of the fields let foresee. -/
theorem visits_eq_foreseen {body : List Stmt} {nodes : List ViewNode}
    (ran : (x.run body).run.run e = (.ok nodes, last)) (steady : x.Steady w e (x.visits body e)) :
    x.visits body e = Foreseen.block x.fields w {} none 0 [] body :=
  blockVisits_eq body {} none 0 [] [] e nodes last ran steady

end BodyRunner

/-! ## Calls -/

/-- The call of a child at a marker, with the key of the child. -/
def RenderVisit.call? : RenderVisit → Option (String × Call)
  | .child path index marker locals =>
    match marker.role with
    | .component bindings =>
      some (childKey path index marker.component, ⟨marker, bindings, locals⟩)
    | _ => none
  | .choice _ _ | .loop _ => none

/-- The calls of children, in order. -/
def calls (visits : List RenderVisit) : List (String × Call) := visits.filterMap (·.call?)

namespace View

/-- The calls of children in the body of a view, with the values that its fields have in a world. -/
def calls (catalog : Catalog) (w : World) (v : View) : List (String × Call) :=
  match catalog.find? v.name with
  | none => []
  | some c => ReactiveView.calls (Foreseen.block v.fields w {} none 0 [] c.render.body)

theorem calls_of_find? {catalog : Catalog} {v : View} {c : Component}
    (found : catalog.find? v.name = some c) (w : World) :
    v.calls catalog w =
      ReactiveView.calls (Foreseen.block v.fields w {} none 0 [] c.render.body) := by
  unfold calls
  rw [found]

/-- The call of the child that a view has under a key.  Of two calls with one key the last counts. -/
def call? (catalog : Catalog) (w : World) (v : View) (key : String) : Option Call :=
  (v.calls catalog w).reverse.lookup key

/-- Children are called at markers of the component, with their arguments. -/
theorem marker_of_call? {catalog : Catalog} {w : World} {v : View} {key : String} {call : Call}
    (found : v.call? catalog w key = some call) :
    ∃ c, catalog.find? v.name = some c ∧ call.marker ∈ Stmt.openingsAll c.render.body ∧
      call.marker.role = .component call.bindings := by
  have isCall := mem_reverse.mp (mem_of_lookup found)
  unfold calls at isCall
  split at isCall
  · exact absurd isCall not_mem_nil
  next c known =>
    obtain ⟨visit, isVisit, called⟩ := mem_filterMap.mp isCall
    cases visit with
    | child path index marker locals =>
      unfold RenderVisit.call? at called
      dsimp only at called
      split at called
      next bindings role =>
        cases called
        exact ⟨c, known, Foreseen.mem_openingsAll _ _ _ _ _ isVisit, role⟩
      · cases called
    | choice | loop => cases called

end View

end ReactiveView
