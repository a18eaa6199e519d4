import ReactiveView.Proofs.BodyForms
import ReactiveView.Proofs.Execution

/-!
# Relations between executions

Two runners that differ in how they render children execute a body alike, in the sense of any relation
between computations that sequencing respects, if they render the children alike
(`BodyRunner.run_related`).  In particular, what the rendering of children keeps, the execution of a
body keeps, whether it ends or fails, if it does not depend on the recorded choices
(`BodyRunner.run_keeps`).
-/

namespace ReactiveView

namespace ExecM

/-- A relation between computations that sequencing respects.  It holds of every computation and
    itself that leaves the state as it is or records a choice. -/
structure IsCongruence (R : ∀ {α : Type}, ExecM α → ExecM α → Prop) : Prop where
  bind : ∀ {α β : Type} {p p' : ExecM α} {f f' : α → ExecM β}, R p p' → (∀ a, R (f a) (f' a)) →
    R (p >>= f) (p' >>= f')
  steady : ∀ {α : Type} {p : ExecM α}, (∀ e, (p.run.run e).2 = e) → R p p
  activate : ∀ site branchId,
    R (BodyRunner.activate site branchId) (BodyRunner.activate site branchId)

end ExecM

namespace BodyRunner

variable {x x' : BodyRunner} {R : ∀ {α : Type}, ExecM α → ExecM α → Prop}

/-- Two runners that differ at most in how children are rendered. -/
structure Alike (x x' : BodyRunner) : Prop where
  component : x'.component = x.component
  fields : x'.fields = x.fields

/-- The two runners render the child of a marker alike, if it has one. -/
def RelatesChild (R : ∀ {α : Type}, ExecM α → ExecM α → Prop) (x x' : BodyRunner) (m : OpenMarker) :
    Prop :=
  ∀ bindings, m.role = .component bindings → ∀ key locals,
    R (x.child key m.component bindings ⟨x.fields, locals⟩)
      (x'.child key m.component bindings ⟨x.fields, locals⟩)

theorem Alike.scope (alike : x.Alike x') : x'.scope = x.scope := by
  funext pos
  simp only [BodyRunner.scope, alike.fields]

theorem Alike.eval (alike : x.Alike x') : x'.eval = x.eval := by
  funext pos code
  simp only [BodyRunner.eval, alike.scope]

theorem Alike.chooseArm (alike : x.Alike x') (pos : Position) (position : Nat)
    (arms : List (BranchArm Stmt)) :
    x'.chooseArm pos position arms = x.chooseArm pos position arms := by
  induction arms generalizing position with
  | nil => rfl
  | cons arm arms ih =>
    unfold BodyRunner.chooseArm
    rw [alike.eval, ih]

section Related

variable (congruence : ExecM.IsCongruence R) (alike : x.Alike x')
include congruence

theorem pure_related {α : Type} (a : α) : R (pure a : ExecM α) (pure a) :=
  congruence.steady fun _ => rfl

include alike in
theorem fail_related {α : Type} (fault : Fault) : R (x.fail fault : ExecM α) (x'.fail fault) := by
  rw [fail, fail, alike.component]
  exact congruence.steady fun _ => rfl

include alike in
theorem openMarker_related {m : OpenMarker} (child : RelatesChild R x x' m) (pos : Position)
    (index : Nat) : R (x.openMarker pos index m) (x'.openMarker pos index m) := by
  unfold openMarker
  rw [alike.eval, alike.scope]
  refine congruence.bind (congruence.steady fun e => by rw [run_evalAll]) fun args => ?_
  refine congruence.bind (congruence.steady fun e => by rw [run_attributes]) fun attributes => ?_
  cases role : m.role with
  | component bindings =>
    exact congruence.bind (child bindings role _ pos.locals) fun _ => pure_related congruence _
  | element | conditional _ | arm _ _ | loop => exact pure_related congruence _

include alike in
theorem closeMarker_related (m : CloseMarker) (opened : List OpenNode) (nodes : List ViewNode) :
    R (x.closeMarker m opened nodes) (x'.closeMarker m opened nodes) := by
  cases opened with
  | nil => exact fail_related congruence alike _
  | cons frame opened =>
    unfold closeMarker
    dsimp only
    split
    · split <;> exact pure_related congruence _
    · exact fail_related congruence alike _

theorem forItems_related {body body' : Position → ExecM (List ViewNode)}
    (each : ∀ pos, R (body pos) (body' pos)) (pos : Position) (params : List String) (index : Nat)
    (items : List Json) : R (forItems pos params body index items)
      (forItems pos params body' index items) := by
  induction items generalizing index with
  | nil => exact pure_related congruence _
  | cons item items ih =>
    exact congruence.bind (each _) fun _ => congruence.bind (ih (index + 1)) fun _ =>
      pure_related congruence _

end Related

mutual

theorem stmt_related (congruence : ExecM.IsCongruence R) (alike : x.Alike x') :
    ∀ (s : Stmt) (pos : Position) (outer : Option (List Json)) (index : Nat)
      (opened : List OpenNode) (nodes : List ViewNode), (∀ m ∈ s.openings, RelatesChild R x x' m) →
      R (x.stmt pos outer index opened nodes s) (x'.stmt pos outer index opened nodes s)
  | .opening m, pos, _, index, _, _, children => by
    rw [stmt, stmt]
    exact congruence.bind (openMarker_related congruence alike (children m List.mem_cons_self) pos index)
      fun _ => pure_related congruence _
  | .closing m, _, _, _, opened, nodes, _ => by
    rw [stmt, stmt]
    exact closeMarker_related congruence alike m opened nodes
  | .branch site arms location, _, _, _, _, _, children => by
    have each := arm_related congruence alike arms
    rw [stmt, stmt, alike.chooseArm]
    refine congruence.bind (congruence.steady fun e => by rw [run_chooseArm]) fun chosen => ?_
    refine congruence.bind (congruence.activate _ _) fun _ => ?_
    cases chosen with
    | none => exact pure_related congruence _
    | some choice =>
      exact congruence.bind (each _ _ choice.1 children) fun _ => pure_related congruence _
  | .items params keyGenerator body, pos, _, _, _, _, children => by
    have each := block_related congruence alike body
    rw [stmt, stmt]
    exact congruence.bind (forItems_related congruence (fun pos => each pos _ 0 [] [] children) _ _ _ _)
      fun _ => pure_related congruence _
  | .code _ _, _, _, _, _, _, _ => by
    rw [stmt, stmt]
    exact pure_related congruence _
  | .element _ _, _, _, _, _, _, _
  | .choice _ _, _, _, _, _, _, _
  | .forEach _ _, _, _, _, _, _, _ => by
    rw [stmt, stmt]
    exact fail_related congruence alike _

theorem block_related (congruence : ExecM.IsCongruence R) (alike : x.Alike x') :
    ∀ (stmts : List Stmt) (pos : Position) (outer : Option (List Json)) (index : Nat)
      (opened : List OpenNode) (nodes : List ViewNode),
      (∀ m ∈ Stmt.openingsAll stmts, RelatesChild R x x' m) →
      R (x.block pos outer index opened nodes stmts) (x'.block pos outer index opened nodes stmts)
  | [], _, _, _, _, _, _ => by
    rw [block, block]
    split
    · exact pure_related congruence _
    · exact fail_related congruence alike _
  | s :: rest, pos, outer, index, opened, nodes, children => by
    have first := stmt_related congruence alike s
    have others := block_related congruence alike rest
    rw [Stmt.openingsAll, List.forall_mem_append] at children
    rw [block, block]
    exact congruence.bind (first pos outer index opened nodes children.1) fun _ =>
      others pos outer (index + 1) _ _ children.2

theorem arm_related (congruence : ExecM.IsCongruence R) (alike : x.Alike x') :
    ∀ (arms : List (BranchArm Stmt)) (pos : Position) (outer : Option (List Json))
      (position : Nat), (∀ m ∈ Stmt.openingsBranches arms, RelatesChild R x x' m) →
      R (x.arm pos outer position arms) (x'.arm pos outer position arms)
  | [], _, _, _, _ => by
    rw [arm, arm]
    exact pure_related congruence _
  | ⟨condition, _, body⟩ :: rest, pos, outer, position, children => by
    have first := block_related congruence alike body
    have others := arm_related congruence alike rest
    rw [Stmt.openingsBranches, List.forall_mem_append] at children
    cases position with
    | zero =>
      rw [arm, arm]
      exact first pos outer 0 [] [] children.1
    | succ position =>
      rw [arm, arm]
      exact others pos outer position children.2

end

/-- Runners that render the children of a body alike execute the body alike. -/
theorem run_related {body : List Stmt} (congruence : ExecM.IsCongruence R) (alike : x.Alike x')
    (children : ∀ m ∈ Stmt.openingsAll body, RelatesChild R x x' m) : R (x.run body) (x'.run body) :=
  block_related congruence alike body {} none 0 [] [] children

end BodyRunner

/-! ## Invariants -/

/-- A computation keeps what holds before it, whatever its outcome. -/
def ExecM.Keeps {α : Type} (inv : Execution → Prop) (p : ExecM α) : Prop :=
  ∀ e, inv e → inv (p.run.run e).2

theorem ExecM.Keeps.bind {α β : Type} {inv : Execution → Prop} {p : ExecM α} {f : α → ExecM β}
    (first : Keeps inv p) (second : ∀ a, Keeps inv (f a)) : Keeps inv (p >>= f) := by
  intro e holds
  have after := first e holds
  rw [run_bind]
  cases ran : p.run.run e with
  | mk result e' =>
    rw [ran] at after
    cases result with
    | ok a => exact second a e' after
    | error fault => exact after

namespace BodyRunner

open ExecM (Keeps)

variable {x : BodyRunner} {inv : Execution → Prop}

/-- Rendering the child of a marker keeps what holds before it, if the marker has one. -/
def KeepsChild (x : BodyRunner) (inv : Execution → Prop) (m : OpenMarker) : Prop :=
  ∀ bindings, m.role = .component bindings → ∀ key locals,
    Keeps inv (x.child key m.component bindings ⟨x.fields, locals⟩)

/-- The execution of a body keeps what the rendering of its children keeps. -/
theorem run_keeps {body : List Stmt} (unrecorded : ∀ e e', e.SameViews e' → inv e → inv e')
    (children : ∀ m ∈ Stmt.openingsAll body, x.KeepsChild inv m) : Keeps inv (x.run body) := by
  have congruence : ExecM.IsCongruence fun {_} p _ => Keeps inv p := by
    constructor
    case bind => exact Keeps.bind
    case steady => exact fun same e holds => (same e).symm ▸ holds
    case activate =>
      intro site branchId e holds
      obtain ⟨e', same, ran⟩ := run_activate site branchId e
      rw [ran]
      exact unrecorded e e' same holds
  have alike : x.Alike x := ⟨rfl, rfl⟩
  exact run_related congruence alike children

end BodyRunner

end ReactiveView
