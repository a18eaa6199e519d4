import ReactiveView.Proofs.BodyForms
import ReactiveView.Proofs.Execution

/-!
# Visits

What is met when a body is executed, in order: the markers of children, the choices at conditionals
and the numbers of items of loops.  Of the states of the execution, only visits change anything but
the recorded choices (`Follows`), so invariants of an execution are proved by induction on its list of
visits.  Which visits there can be is a matter of the body alone (`Covers`), and which markers are met
depends only on the arms chosen and the numbers of items (`Covers.markers_eq`).
-/

namespace ReactiveView

open List

/-- What is met while a body is executed. -/
inductive RenderVisit where
  /-- The marker of a child at a position of a block. -/
  | child (path : List String) (index : Nat) (marker : OpenMarker) (locals : List (String × Json))
  /-- A conditional with the position and the branch of the chosen arm. -/
  | choice (site : UInt32) (chosen : Option (Nat × UInt32))
  /-- A loop with the number of its items. -/
  | loop (count : Nat)

/-- The key of the child for a marker at a position of a block. -/
def childKey (path : List String) (index : Nat) (component : String) : String :=
  "/".intercalate path ++ s!"/{index}:{component}"

/-- The marker of a child at a position of a block. -/
structure MetMarker where
  path : List String
  index : Nat
  marker : OpenMarker

/-- The key of the child for a marker. -/
def MetMarker.key (m : MetMarker) : String := childKey m.path m.index m.marker.component

/-- What an execution depends on: the arm that is chosen at a conditional, if any, and the number of
    items of a loop. -/
inductive Decision where
  | arm (site : UInt32) (chosen : Option (Nat × UInt32))
  | items (count : Nat)
deriving DecidableEq

namespace RenderVisit

/-- The marker that is met. -/
def marker? : RenderVisit → Option MetMarker
  | .child path index marker _ => some ⟨path, index, marker⟩
  | .choice _ _ | .loop _ => none

/-- The decision that is made. -/
def decision? : RenderVisit → Option Decision
  | .child _ _ _ _ => none
  | .choice site chosen => some (.arm site chosen)
  | .loop count => some (.items count)

end RenderVisit

/-- The markers that are met, in order. -/
def markers (visits : List RenderVisit) : List MetMarker := visits.filterMap (·.marker?)

/-- The decisions that are made, in order. -/
def decisions (visits : List RenderVisit) : List Decision := visits.filterMap (·.decision?)

theorem markers_append (first second : List RenderVisit) :
    markers (first ++ second) = markers first ++ markers second := filterMap_append ..

theorem decisions_append (first second : List RenderVisit) :
    decisions (first ++ second) = decisions first ++ decisions second := filterMap_append ..

/-- The path element of an arm. -/
def armStep (site branchId : UInt32) : String := s!"s{site}b{branchId}"

/-- The path element of an item. -/
def itemStep (index : Nat) : String := s!"i{index}"

namespace BodyRunner

/-! ## Visits of an execution -/

/-- The visits for the items of a loop, given those for one item. -/
def itemsVisits (pos : Position) (params : List String) (body : Position → ExecM (List ViewNode))
    (visits : Position → Execution → List RenderVisit) (index : Nat) :
    List Json → Execution → List RenderVisit
  | [], _ => []
  | item :: rest, e =>
    let inner : Position :=
      { path := pos.path ++ [itemStep index]
        locals := itemNames params item index ++ pos.locals }
    visits inner e ++
      match (body inner).run.run e with
      | (.ok _, e) => itemsVisits pos params body visits (index + 1) rest e
      | (.error _, _) => []

mutual

/-- The visits of the rest of a block. -/
def blockVisits (x : BodyRunner) (pos : Position) (outer : Option (List Json)) (index : Nat)
    (opened : List OpenNode) (nodes : List ViewNode) : List Stmt → Execution → List RenderVisit
  | [], _ => []
  | s :: rest, e =>
    x.stmtVisits pos outer index opened s e ++
      match (x.stmt pos outer index opened nodes s).run.run e with
      | (.ok (opened, nodes), e) => x.blockVisits pos outer (index + 1) opened nodes rest e
      | (.error _, _) => []

/-- The visits of a statement. -/
def stmtVisits (x : BodyRunner) (pos : Position) (outer : Option (List Json)) (index : Nat)
    (opened : List OpenNode) : Stmt → Execution → List RenderVisit
  | .opening marker, _ =>
    match marker.role with
    | .component _ => [.child pos.path index marker pos.locals]
    | _ => []
  | .branch site arms _, e =>
    let chosen := chosen (x.holds pos.locals e.world) 0 arms
    let e := ((activate site (chosen.map (·.2))).run.run e).2
    .choice site chosen ::
      match chosen with
      | none => []
      | some (position, branchId) =>
        x.armVisits { pos with path := pos.path ++ [armStep site branchId] }
          (currentItems outer opened) position arms e
  | .items params _ body, e =>
    let items := currentItems outer opened
    .loop (items.getD []).length ::
      itemsVisits pos params (fun pos => x.block pos items 0 [] [] body)
        (fun pos e => x.blockVisits pos items 0 [] [] body e) 0 (items.getD []) e
  | .closing _, _ | .code _ _, _ | .element _ _, _ | .choice _ _, _ | .forEach _ _, _ => []

/-- The visits of the arm at a position. -/
def armVisits (x : BodyRunner) (pos : Position) (outer : Option (List Json)) (position : Nat) :
    List (BranchArm Stmt) → Execution → List RenderVisit
  | [], _ => []
  | ⟨_, _, body⟩ :: rest, e =>
    match position with
    | 0 => x.blockVisits pos outer 0 [] [] body e
    | position + 1 => x.armVisits pos outer position rest e

end

/-- The visits of the body of a view. -/
def visits (x : BodyRunner) (body : List Stmt) (e : Execution) : List RenderVisit :=
  x.blockVisits {} none 0 [] [] body e

/-! ## What visits do -/

/-- An execution goes from one state to another by visits. -/
inductive Follows (x : BodyRunner) : Execution → List RenderVisit → Execution → Prop
  | nil {e : Execution} : Follows x e [] e
  | child {e e' last : Execution} {path : List String} {index : Nat} {marker : OpenMarker}
      {bindings : List BoundArgument} {locals : List (String × Json)} {nodes : List ViewNode}
      {visits : List RenderVisit} (role : marker.role = .component bindings)
      (ran : (x.child (childKey path index marker.component) marker.component bindings
        ⟨x.fields, locals⟩).run.run e = (.ok nodes, e'))
      (rest : Follows x e' visits last) :
      Follows x e (.child path index marker locals :: visits) last
  | choice {e e' last : Execution} {site : UInt32} {chosen : Option (Nat × UInt32)}
      {visits : List RenderVisit}
      (recorded : (activate site (chosen.map (·.2))).run.run e = (.ok (), e'))
      (rest : Follows x e' visits last) : Follows x e (.choice site chosen :: visits) last
  | loop {e last : Execution} {count : Nat} {visits : List RenderVisit}
      (rest : Follows x e visits last) : Follows x e (.loop count :: visits) last

theorem Follows.append {x : BodyRunner} {e e' last : Execution} {first second : List RenderVisit}
    (follows : x.Follows e first e') (after : x.Follows e' second last) :
    x.Follows e (first ++ second) last := by
  induction follows with
  | nil => exact after
  | child role ran _ ih => exact .child role ran (ih after)
  | choice recorded _ ih => exact .choice recorded (ih after)
  | loop _ ih => exact .loop (ih after)

theorem Follows.of_append {x : BodyRunner} {e last : Execution} {first second : List RenderVisit}
    (follows : x.Follows e (first ++ second) last) :
    ∃ e', x.Follows e first e' ∧ x.Follows e' second last := by
  induction first generalizing e with
  | nil => exact ⟨e, .nil, follows⟩
  | cons visit first ih =>
    cases follows with
    | child role ran rest =>
      obtain ⟨e', before, after⟩ := ih rest
      exact ⟨e', .child role ran before, after⟩
    | choice recorded rest =>
      obtain ⟨e', before, after⟩ := ih rest
      exact ⟨e', .choice recorded before, after⟩
    | loop rest =>
      obtain ⟨e', before, after⟩ := ih rest
      exact ⟨e', .loop before, after⟩

end BodyRunner

/-! ## Visits that a body can have -/

mutual

/-- The visits that a statement at a position of a block can have. -/
inductive CoversStmt : List String → Nat → Stmt → List RenderVisit → Prop
  | plain {path : List String} {index : Nat} {marker : OpenMarker}
      (plain : ∀ bindings, marker.role ≠ .component bindings) :
      CoversStmt path index (.opening marker) []
  | child {path : List String} {index : Nat} {marker : OpenMarker}
      {bindings : List BoundArgument} {locals : List (String × Json)}
      (role : marker.role = .component bindings) :
      CoversStmt path index (.opening marker) [.child path index marker locals]
  | closing {path : List String} {index : Nat} {marker : CloseMarker} :
      CoversStmt path index (.closing marker) []
  | code {path : List String} {index : Nat} {text : String} {location : Location} :
      CoversStmt path index (.code text location) []
  | none {path : List String} {index : Nat} {site : UInt32} {arms : List (BranchArm Stmt)}
      {location : Location} : CoversStmt path index (.branch site arms location) [.choice site none]
  | arm {path : List String} {index : Nat} {site : UInt32} {arms : List (BranchArm Stmt)}
      {location : Location} {position : Nat} {arm : BranchArm Stmt} {visits : List RenderVisit}
      (chosen : arms[position]? = some arm)
      (inner : Covers (path ++ [armStep site arm.branchId]) 0 arm.body visits) :
      CoversStmt path index (.branch site arms location)
        (.choice site (some (position, arm.branchId)) :: visits)
  | items {path : List String} {index : Nat} {params : List String} {keyGenerator : Option String}
      {body : List Stmt} {count : Nat} {visits : List RenderVisit}
      (each : CoversItems path body 0 count visits) :
      CoversStmt path index (.items params keyGenerator body) (.loop count :: visits)

/-- The visits that the rest of a block can have. -/
inductive Covers : List String → Nat → List Stmt → List RenderVisit → Prop
  | nil {path : List String} {index : Nat} : Covers path index [] []
  | cons {path : List String} {index : Nat} {s : Stmt} {rest : List Stmt}
      {first others : List RenderVisit} (head : CoversStmt path index s first)
      (tail : Covers path (index + 1) rest others) :
      Covers path index (s :: rest) (first ++ others)

/-- The visits that the items of a loop can have, from an item on. -/
inductive CoversItems : List String → List Stmt → Nat → Nat → List RenderVisit → Prop
  | nil {path : List String} {body : List Stmt} {index : Nat} : CoversItems path body index 0 []
  | cons {path : List String} {body : List Stmt} {index count : Nat} {first others : List RenderVisit}
      (head : Covers (path ++ [itemStep index]) 0 body first)
      (tail : CoversItems path body (index + 1) count others) :
      CoversItems path body index (count + 1) (first ++ others)

end

/-! ## The decisions determine the markers -/

-- Where the decisions of a statement end is not known beforehand, so those after it are compared too.
mutual

theorem CoversStmt.markers_eq {path : List String} {index : Nat} {s : Stmt}
    {visits visits' : List RenderVisit} {rest rest' : List Decision} :
    CoversStmt path index s visits → CoversStmt path index s visits' →
    decisions visits ++ rest = decisions visits' ++ rest' →
    markers visits = markers visits' ∧ rest = rest'
  | .plain plain, covers, same => by
    cases covers with
    | plain => exact ⟨rfl, same⟩
    | child role => exact absurd role (plain _)
  | .child role, covers, same => by
    cases covers with
    | plain plain => exact absurd role (plain _)
    | child => exact ⟨rfl, same⟩
  | .closing, covers, same => by
    cases covers
    exact ⟨rfl, same⟩
  | .code, covers, same => by
    cases covers
    exact ⟨rfl, same⟩
  | .none, covers, same => by
    cases covers with
    | none => exact ⟨rfl, (List.cons.inj same).2⟩
    | arm => cases (List.cons.inj same).1
  | .arm chosen inner, covers, same => by
    cases covers with
    | none => cases (List.cons.inj same).1
    | arm chosen' inner' =>
      obtain ⟨choice, after⟩ := List.cons.inj same
      simp only [Decision.arm.injEq, Option.some.injEq, Prod.mk.injEq, true_and] at choice
      obtain ⟨rfl, _⟩ := choice
      cases chosen.symm.trans chosen'
      exact (inner.markers_eq inner' after :)
  | .items each, covers, same => by
    cases covers with
    | items each' =>
      obtain ⟨count, after⟩ := List.cons.inj same
      cases count
      exact (each.markers_eq each' after :)

theorem Covers.markers_eq {path : List String} {index : Nat} {body : List Stmt}
    {visits visits' : List RenderVisit} {rest rest' : List Decision} :
    Covers path index body visits → Covers path index body visits' →
    decisions visits ++ rest = decisions visits' ++ rest' →
    markers visits = markers visits' ∧ rest = rest'
  | .nil, covers, same => by
    cases covers
    exact ⟨rfl, same⟩
  | .cons head tail, covers, same => by
    cases covers with
    | cons head' tail' =>
      rw [decisions_append, decisions_append, append_assoc, append_assoc] at same
      obtain ⟨first, same⟩ := head.markers_eq head' same
      obtain ⟨others, same⟩ := tail.markers_eq tail' same
      rw [markers_append, markers_append, first, others]
      exact ⟨rfl, same⟩

theorem CoversItems.markers_eq {path : List String} {index count : Nat} {body : List Stmt}
    {visits visits' : List RenderVisit} {rest rest' : List Decision} :
    CoversItems path body index count visits → CoversItems path body index count visits' →
    decisions visits ++ rest = decisions visits' ++ rest' →
    markers visits = markers visits' ∧ rest = rest'
  | .nil, covers, same => by
    cases covers
    exact ⟨rfl, same⟩
  | .cons head tail, covers, same => by
    cases covers with
    | cons head' tail' =>
      rw [decisions_append, decisions_append, append_assoc, append_assoc] at same
      obtain ⟨first, same⟩ := head.markers_eq head' same
      obtain ⟨others, same⟩ := tail.markers_eq tail' same
      rw [markers_append, markers_append, first, others]
      exact ⟨rfl, same⟩

end

/-! ## Executions go by their visits -/

theorem ExecM.run_bind_ok_iff {α β : Type} {p : ExecM α} {f : α → ExecM β} {e last : Execution}
    {b : β} :
    (p >>= f).run.run e = (.ok b, last) ↔
      ∃ a e', p.run.run e = (.ok a, e') ∧ (f a).run.run e' = (.ok b, last) := by
  rw [run_bind]
  cases ran : p.run.run e with
  | mk result e' =>
    cases result with
    | ok a =>
      constructor
      · intro rest
        exact ⟨a, e', rfl, rest⟩
      · rintro ⟨a', e'', same, rest⟩
        cases same
        exact rest
    | error fault =>
      constructor
      · intro same
        cases same
      · rintro ⟨a', e'', same, rest⟩
        cases same

namespace BodyRunner

variable {x : BodyRunner}

/-- The marker of a child is opened with the nodes of the child. -/
theorem openMarker_component_iff {pos : Position} {index : Nat} {m : OpenMarker}
    {bindings : List BoundArgument} (role : m.role = .component bindings) {e last : Execution}
    {frame : OpenNode} :
    (x.openMarker pos index m).run.run e = (.ok frame, last) ↔
      ∃ nodes, (x.child (childKey pos.path index m.component) m.component bindings
          ⟨x.fields, pos.locals⟩).run.run e = (.ok nodes, last) ∧
        frame = { x.plainNode pos e.world m with children := nodes } := by
  have plain (nodes : List ViewNode) : { x.plainNode pos e.world m with children := nodes } =
      ({ name := m.component
         args := m.args.map ((x.scope pos).eval e.world)
         attributes := m.attributes.map (x.attributeValue pos e.world)
         children := nodes } : OpenNode) := by
    simp [plainNode, role, Role.branchId?]
  simp only [plain]
  unfold openMarker
  rw [ExecM.run_bind_ok (run_evalAll x pos m.args e),
    ExecM.run_bind_ok (run_attributes x pos m.attributes e)]
  simp only [role]
  constructor
  · intro ran
    obtain ⟨nodes, e', rendered, same⟩ := ExecM.run_bind_ok_iff.mp ran
    cases same
    exact ⟨nodes, rendered, rfl⟩
  · rintro ⟨nodes, rendered, rfl⟩
    exact ExecM.run_bind_ok_iff.mpr ⟨nodes, last, rendered, rfl⟩

/-- A marker that is not that of a child is no visit. -/
theorem stmtVisits_opening {pos : Position} {outer : Option (List Json)} {index : Nat}
    {opened : List OpenNode} {m : OpenMarker} {e : Execution}
    (plain : ∀ bindings, m.role ≠ .component bindings) :
    x.stmtVisits pos outer index opened (.opening m) e = [] := by
  rw [stmtVisits]
  split
  next bindings isComponent => exact absurd isComponent (plain bindings)
  · rfl

theorem getElem?_of_chosen {holds : String → Bool} {arms : List (BranchArm Stmt)} {position : Nat}
    {branchId : UInt32} (which : chosen holds 0 arms = some (position, branchId)) :
    ∃ arm, arms[position]? = some arm ∧ arm.branchId = branchId := by
  induction arms generalizing position with
  | nil => cases which
  | cons arm arms ih =>
    rw [chosen] at which
    split at which
    · cases which
      exact ⟨arm, rfl, rfl⟩
    · rw [chosen_succ] at which
      obtain ⟨⟨before, branch⟩, which', same⟩ := Option.map_eq_some_iff.mp which
      cases same
      exact ih which'

theorem itemsVisits_spec {pos : Position} {params : List String}
    {body : Position → ExecM (List ViewNode)} {visits : Position → Execution → List RenderVisit}
    {stmts : List Stmt}
    (each : ∀ pos e nodes last, (body pos).run.run e = (.ok nodes, last) →
      x.Follows e (visits pos e) last ∧ Covers pos.path 0 stmts (visits pos e))
    {index : Nat} {items : List Json} {e last : Execution} {nodes : List ViewNode}
    (ran : (forItems pos params body index items).run.run e = (.ok nodes, last)) :
    x.Follows e (itemsVisits pos params body visits index items e) last ∧
      CoversItems pos.path stmts index items.length
        (itemsVisits pos params body visits index items e) := by
  induction items generalizing index e nodes with
  | nil =>
    cases ran
    exact ⟨.nil, .nil⟩
  | cons item items ih =>
    obtain ⟨first, e', head, ran⟩ := ExecM.run_bind_ok_iff.mp ran
    obtain ⟨others, e'', tail, same⟩ := ExecM.run_bind_ok_iff.mp ran
    cases same
    obtain ⟨follows, covers⟩ := each _ _ _ _ head
    obtain ⟨follows', covers'⟩ := ih tail
    unfold itemsVisits
    dsimp only [itemStep]
    rw [head]
    exact ⟨follows.append follows', .cons covers covers'⟩

mutual

theorem stmtVisits_spec : ∀ (s : Stmt) (pos : Position) (outer : Option (List Json)) (index : Nat)
    (opened : List OpenNode) (nodes : List ViewNode) (e : Execution)
    (after : List OpenNode × List ViewNode) (last : Execution),
    (x.stmt pos outer index opened nodes s).run.run e = (.ok after, last) →
    x.Follows e (x.stmtVisits pos outer index opened s e) last ∧
      CoversStmt pos.path index s (x.stmtVisits pos outer index opened s e)
  | .opening marker, pos, _, index, _, _, e, _, _, ran => by
    rw [stmt] at ran
    obtain ⟨frame, e', begun, same⟩ := ExecM.run_bind_ok_iff.mp ran
    cases same
    by_cases role : ∃ bindings, marker.role = .component bindings
    · obtain ⟨bindings, role⟩ := role
      obtain ⟨children, rendered, _⟩ := (openMarker_component_iff role).mp begun
      simp only [stmtVisits, role]
      exact ⟨.child role rendered .nil, .child role⟩
    · rw [not_exists] at role
      rw [run_openMarker x pos index marker e role] at begun
      cases begun
      rw [stmtVisits_opening role]
      exact ⟨.nil, .plain role⟩
  | .closing marker, _, _, _, _, _, e, _, last, ran => by
    rw [stmt] at ran
    rw [stmtVisits]
    obtain ⟨_, _, _, _, _, _, rfl⟩ := (closeMarker_ok_iff x).mp ran
    exact ⟨.nil, .closing⟩
  | .branch site arms location, pos, _, _, _, _, e, _, _, ran => by
    have each := armVisits_spec arms
    rw [run_stmt_branch] at ran
    rw [stmtVisits]
    cases which : chosen (x.holds pos.locals e.world) 0 arms with
    | none =>
      rw [which] at ran
      cases ran
      exact ⟨.choice rfl .nil, .none⟩
    | some choice =>
      obtain ⟨position, branchId⟩ := choice
      rw [which] at ran
      obtain ⟨added, e', inner, ended⟩ := ExecM.run_bind_ok_iff.mp ran
      cases ended
      obtain ⟨arm, isArm, rfl⟩ := getElem?_of_chosen which
      obtain ⟨follows, covers⟩ := each _ _ _ _ _ _ inner
      exact ⟨.choice rfl follows, .arm isArm (covers arm isArm)⟩
  | .items params keyGenerator body, pos, _, _, _, nodes, e, _, last, ran => by
    have each := blockVisits_spec body
    rw [stmt] at ran
    obtain ⟨added, e', inner, ended⟩ := ExecM.run_bind_ok_iff.mp ran
    cases ended
    rw [stmtVisits]
    obtain ⟨follows, covers⟩ := itemsVisits_spec
      (fun pos e nodes last ran => each pos _ 0 [] [] e nodes last ran) inner
    exact ⟨.loop follows, .items covers⟩
  | .code _ _, _, _, _, _, _, _, _, _, ran => by
    rw [stmt] at ran
    cases ran
    exact ⟨.nil, .code⟩
  | .element _ _, _, _, _, _, _, _, _, _, ran
  | .choice _ _, _, _, _, _, _, _, _, _, ran
  | .forEach _ _, _, _, _, _, _, _, _, _, ran => by
    rw [stmt] at ran
    cases ran

theorem blockVisits_spec : ∀ (stmts : List Stmt) (pos : Position) (outer : Option (List Json))
    (index : Nat) (opened : List OpenNode) (nodes : List ViewNode) (e : Execution)
    (after : List ViewNode) (last : Execution),
    (x.block pos outer index opened nodes stmts).run.run e = (.ok after, last) →
    x.Follows e (x.blockVisits pos outer index opened nodes stmts e) last ∧
      Covers pos.path index stmts (x.blockVisits pos outer index opened nodes stmts e)
  | [], _, _, _, _, _, e, _, last, ran => by
    rw [block] at ran
    rw [blockVisits]
    have same : last = e := by
      split at ran
      · cases ran
        rfl
      · cases ran
    rw [same]
    exact ⟨.nil, .nil⟩
  | s :: rest, _, _, _, _, _, _, _, _, ran => by
    have first := stmtVisits_spec s
    have others := blockVisits_spec rest
    rw [block] at ran
    obtain ⟨⟨opened', nodes'⟩, e', head, tail⟩ := ExecM.run_bind_ok_iff.mp ran
    obtain ⟨follows, covers⟩ := first _ _ _ _ _ _ _ _ head
    obtain ⟨follows', covers'⟩ := others _ _ _ _ _ _ _ _ tail
    rw [blockVisits, head]
    exact ⟨follows.append follows', .cons covers covers'⟩

theorem armVisits_spec : ∀ (arms : List (BranchArm Stmt)) (pos : Position)
    (outer : Option (List Json)) (position : Nat) (e : Execution) (nodes : List ViewNode)
    (last : Execution), (x.arm pos outer position arms).run.run e = (.ok nodes, last) →
    x.Follows e (x.armVisits pos outer position arms e) last ∧
      ∀ arm ∈ arms[position]?, Covers pos.path 0 arm.body (x.armVisits pos outer position arms e)
  | [], _, _, _, _, _, _, ran => by
    rw [arm] at ran
    cases ran
    rw [armVisits]
    exact ⟨.nil, nofun⟩
  | ⟨condition, _, body⟩ :: rest, _, _, position, _, _, _, ran => by
    have first := blockVisits_spec body
    have others := armVisits_spec rest
    cases position with
    | zero =>
      rw [arm] at ran
      rw [armVisits]
      obtain ⟨follows, covers⟩ := first _ _ _ _ _ _ _ _ ran
      refine ⟨follows, ?_⟩
      rintro arm same
      cases same
      exact covers
    | succ position =>
      rw [arm] at ran
      rw [armVisits]
      exact others _ _ _ _ _ _ ran

end

/-- An execution goes by its visits, and its body can have them. -/
theorem visits_spec {body : List Stmt} {e last : Execution} {nodes : List ViewNode}
    (ran : (x.run body).run.run e = (.ok nodes, last)) :
    x.Follows e (x.visits body e) last ∧ Covers [] 0 body (x.visits body e) :=
  blockVisits_spec body {} none 0 [] [] e nodes last ran

end BodyRunner

end ReactiveView
