import ReactiveView.Proofs.BodyForms
import ReactiveView.Proofs.Execution

/-!
# Execution of bracketed bodies

A linear body that passes the bracketing check is executed without a fault of its own: every marker
that it closes is the last one open, and no marker is left open at the end of a block.  The check
and the execution go through a body with the same markers open, so `Balance.block` without faults is
the invariant of `BodyRunner.block`.  What remains are the children: if rendering them is safe, so is
the whole body.
-/

namespace ReactiveView

/-! ## Faults of the bracketing check -/

namespace Balance

mutual

/-- A check never forgets a fault. -/
theorem faults_of_stmt : ∀ (s : Stmt) (frame : Frame) (b : Balance),
    (stmt frame b s).2.faults = [] → b.faults = []
  | .element head _, _, _, clear => by simp [stmt, fail] at clear
  | .choice arms _, _, b, clear => faults_of_choiceArms arms b clear
  | .forEach _ body, _, b, clear => faults_of_block body [] b clear
  | .code _ _, _, _, clear => clear
  | .opening _, _, _, clear => clear
  | .closing marker, _, _, clear => by
    simp only [stmt, close] at clear
    split at clear
    · simp [fail] at clear
    · split at clear
      · exact clear
      · simp [fail] at clear
  | .branch _ arms _, _, b, clear => faults_of_branchArms arms b clear
  | .items _ _ body, _, b, clear => faults_of_block body [] b clear

theorem faults_of_block : ∀ (stmts : List Stmt) (frame : Frame) (b : Balance),
    (block frame b stmts).faults = [] → b.faults = []
  | [], frame, _, clear => by
    cases frame with
    | nil => exact clear
    | cons top frame => simp [block, fail] at clear
  | s :: rest, frame, b, clear =>
    faults_of_stmt s frame b (faults_of_block rest _ _ clear)

theorem faults_of_choiceArms : ∀ (arms : List (Arm Stmt)) (b : Balance),
    (choiceArms b arms).faults = [] → b.faults = []
  | [], _, clear => clear
  | ⟨_, body⟩ :: rest, b, clear => faults_of_block body [] b (faults_of_choiceArms rest _ clear)

theorem faults_of_branchArms : ∀ (arms : List (BranchArm Stmt)) (b : Balance),
    (branchArms b arms).faults = [] → b.faults = []
  | [], _, clear => clear
  | ⟨_, _, body⟩ :: rest, b, clear => faults_of_block body [] b (faults_of_branchArms rest _ clear)

end

end Balance

/-! ## Ends of computations -/

/-- All children of an execution, those met and those of the last rendering, satisfy a condition. -/
structure Execution.AllViews (ok : View → Prop) (e : Execution) : Prop where
  former : ∀ child ∈ e.former, ok child.2
  children : ∀ child ∈ e.children, ok child.2

theorem Execution.SameViews.allViews {ok : View → Prop} {e e' : Execution} (same : e.SameViews e')
    (all : e.AllViews ok) : e'.AllViews ok :=
  ⟨same.former ▸ all.former, same.children ▸ all.children⟩

namespace ExecM

variable {α β : Type} {ok : View → Prop} {allowed : RenderFault → Prop} {deep : Prop}

/-- A computation that keeps a condition on all children and fails only in the given ways. -/
def Ends (ok : View → Prop) (allowed : RenderFault → Prop) (p : ExecM α) (post : α → Prop) : Prop :=
  ∀ e : Execution, e.AllViews ok → ∃ result e', p.run.run e = (result, e') ∧ e'.AllViews ok ∧
    ((∃ fault, result = .error fault ∧ allowed fault) ∨ ∃ a, result = .ok a ∧ post a)

namespace Ends

theorem pure {a : α} {post : α → Prop} (holds : post a) : Ends ok allowed (pure a) post :=
  fun e kept => ⟨.ok a, e, rfl, kept, .inr ⟨a, rfl, holds⟩⟩

theorem bind {p : ExecM α} {f : α → ExecM β} {middle : α → Prop} {post : β → Prop}
    (first : Ends ok allowed p middle) (second : ∀ a, middle a → Ends ok allowed (f a) post) :
    Ends ok allowed (p >>= f) post := by
  intro e kept
  obtain ⟨result, e', ran, kept', outcome⟩ := first e kept
  rcases outcome with ⟨fault, rfl, isAllowed⟩ | ⟨a, rfl, holds⟩
  · exact ⟨.error fault, e', by rw [run_bind, ran], kept', .inl ⟨fault, rfl, isAllowed⟩⟩
  · obtain ⟨result, e'', ran', rest⟩ := second a holds e' kept'
    exact ⟨result, e'', by rw [run_bind_ok ran, ran'], rest⟩

theorem imp {p : ExecM α} {post post' : α → Prop} (ends : Ends ok allowed p post)
    (weaker : ∀ a, post a → post' a) : Ends ok allowed p post' := by
  intro e kept
  obtain ⟨result, e', ran, kept', outcome⟩ := ends e kept
  exact ⟨result, e', ran, kept', outcome.imp_right fun ⟨a, same, holds⟩ => ⟨a, same, weaker a holds⟩⟩

/-- A computation that only reads does not fail. -/
theorem reads {p : ExecM α} {value : Execution → α}
    (ran : ∀ e, p.run.run e = (.ok (value e), e)) : Ends ok allowed p fun a => ∃ e, a = value e :=
  fun e kept => ⟨_, e, ran e, kept, .inr ⟨_, rfl, e, rfl⟩⟩

end Ends

/-- A computation that keeps a condition on all children and does not fail, unless views nest too
    deep, which they do only if `deep` holds. -/
def Safe (ok : View → Prop) (deep : Prop) (p : ExecM α) (post : α → Prop) : Prop :=
  ∀ e : Execution, e.AllViews ok → ∃ result e', p.run.run e = (result, e') ∧ e'.AllViews ok ∧
    ((result = .error .tooDeep ∧ deep) ∨ ∃ a, result = .ok a ∧ post a)

theorem safe_iff_ends {p : ExecM α} {post : α → Prop} :
    Safe ok deep p post ↔ Ends ok (fun fault => fault = .tooDeep ∧ deep) p post := by
  have same : ∀ result : Except RenderFault α, (result = .error .tooDeep ∧ deep) ↔
      ∃ fault, result = .error fault ∧ fault = .tooDeep ∧ deep := by
    intro result
    constructor
    · rintro ⟨rfl, nested⟩
      exact ⟨_, rfl, rfl, nested⟩
    · rintro ⟨_, rfl, rfl, nested⟩
      exact ⟨rfl, nested⟩
  simp only [Safe, Ends, same]

theorem Safe.bind {p : ExecM α} {f : α → ExecM β} {middle : α → Prop} {post : β → Prop}
    (first : Safe ok deep p middle) (second : ∀ a, middle a → Safe ok deep (f a) post) :
    Safe ok deep (p >>= f) post :=
  safe_iff_ends.mpr ((safe_iff_ends.mp first).bind fun a holds => safe_iff_ends.mp (second a holds))

theorem Safe.imp {deep' : Prop} {p : ExecM α} {post post' : α → Prop} (safe : Safe ok deep p post)
    (deeper : deep → deep') (weaker : ∀ a, post a → post' a) : Safe ok deep' p post' := by
  intro e kept
  obtain ⟨result, e', ran, kept', outcome⟩ := safe e kept
  exact ⟨result, e', ran, kept',
    outcome.imp (And.imp_right deeper) fun ⟨a, same, holds⟩ => ⟨a, same, weaker a holds⟩⟩

end ExecM

/-! ## Execution -/

/-- What the bracketing check keeps of an open marker. -/
def OpenNode.key (f : OpenNode) : String × Option UInt32 := (f.name, f.branchId)

namespace BodyRunner

open ExecM (Ends Safe)

variable {x : BodyRunner} {ok : View → Prop} {allowed : RenderFault → Prop} {deep : Prop}

/-- Rendering the child of a marker fails only in the given ways, if it has one. -/
def EndsChild (x : BodyRunner) (ok : View → Prop) (allowed : RenderFault → Prop) (m : OpenMarker) :
    Prop :=
  ∀ bindings, m.role = .component bindings → ∀ key locals,
    Ends ok allowed (x.child key m.component bindings ⟨x.fields, locals⟩) fun _ => True

theorem openMarker_ends {m : OpenMarker} (child : x.EndsChild ok allowed m) (pos : Position)
    (index : Nat) :
    Ends ok allowed (x.openMarker pos index m) fun f => f.key = (m.component, m.role.branchId?) := by
  by_cases role : ∃ bindings, m.role = .component bindings
  · obtain ⟨bindings, role⟩ := role
    unfold openMarker
    refine (Ends.reads (run_evalAll x pos m.args)).bind fun args _ => ?_
    refine (Ends.reads (run_attributes x pos m.attributes)).bind fun attributes _ => ?_
    simp only [role]
    refine (child bindings role _ pos.locals).bind fun children _ => Ends.pure ?_
    simp [OpenNode.key, Role.branchId?]
  · rw [not_exists] at role
    refine (Ends.reads fun e => run_openMarker x pos index m e role).imp ?_
    rintro f ⟨e, rfl⟩
    rfl

theorem closeMarker_ends {m : CloseMarker} {opened : List OpenNode} {nodes : List ViewNode}
    {b : Balance} (clear : (Balance.close m (opened.map OpenNode.key) b).2.faults = []) :
    Ends ok allowed (x.closeMarker m opened nodes) fun after =>
      after.1.map OpenNode.key = (Balance.close m (opened.map OpenNode.key) b).1 := by
  cases opened with
  | nil => simp [Balance.close, Balance.fail] at clear
  | cons frame opened =>
    simp only [List.map_cons, OpenNode.key, Balance.close] at clear ⊢
    by_cases same : frame.name = m.component ∧ frame.branchId = m.branchId
    · simp only [closeMarker, if_pos same]
      cases opened with
      | nil => exact Ends.pure rfl
      | cons outer opened => exact Ends.pure rfl
    · simp [if_neg same, Balance.fail] at clear

theorem map_key_addNodes (added : List ViewNode) (opened : List OpenNode) (nodes : List ViewNode) :
    (addNodes added opened nodes).1.map OpenNode.key = opened.map OpenNode.key := by
  cases opened <;> rfl

theorem forItems_ends {body : Position → ExecM (List ViewNode)}
    (each : ∀ pos, Ends ok allowed (body pos) fun _ => True) (pos : Position) (params : List String)
    (index : Nat) (items : List Json) :
    Ends ok allowed (forItems pos params body index items) fun _ => True := by
  induction items generalizing index with
  | nil => exact Ends.pure trivial
  | cons item items ih =>
    exact (each _).bind fun _ _ => (ih (index + 1)).bind fun _ _ => Ends.pure trivial

theorem activate_ends (site : UInt32) (branchId : Option UInt32) :
    Ends ok allowed (activate site branchId) fun _ => True := by
  intro e kept
  obtain ⟨e', same, ran⟩ := run_activate site branchId e
  exact ⟨_, e', ran, same.allViews kept, .inr ⟨(), rfl, trivial⟩⟩

mutual

/-- A statement that passes the bracketing check fails only as its children do, and leaves the
    markers open that the check leaves open. -/
theorem stmt_ends : ∀ (s : Stmt) (pos : Position) (outer : Option (List Json)) (index : Nat)
    (opened : List OpenNode) (nodes : List ViewNode) (b : Balance), s.isLinear = true →
    (∀ m ∈ s.openings, x.EndsChild ok allowed m) →
    (Balance.stmt (opened.map OpenNode.key) b s).2.faults = [] →
    Ends ok allowed (x.stmt pos outer index opened nodes s) fun after =>
      after.1.map OpenNode.key = (Balance.stmt (opened.map OpenNode.key) b s).1
  | .opening m, pos, _, index, _, _, _, _, children, _ => by
    rw [stmt]
    refine (openMarker_ends (children m List.mem_cons_self) pos index).bind fun f key => ?_
    exact Ends.pure (by simp [key, Balance.stmt])
  | .closing m, _, _, _, _, _, _, _, _, clear => by
    rw [stmt]
    exact closeMarker_ends clear
  | .branch site arms location, pos, _, _, opened, nodes, b, linear, children, clear => by
    have each := arms_ends arms
    rw [stmt]
    refine (Ends.reads (run_chooseArm x pos 0 arms)).bind fun chosen _ => ?_
    refine (activate_ends site _).bind fun _ _ => ?_
    -- the chosen arm is a block of its own, whatever is open around it
    cases chosen with
    | none => exact Ends.pure rfl
    | some choice =>
      refine (each _ _ choice.1 b linear children clear).bind fun added _ => ?_
      exact Ends.pure (map_key_addNodes added opened nodes)
  | .items params keyGenerator body, pos, outer, index, opened, nodes, b, linear, children,
    clear => by
    have each := block_ends body
    rw [stmt]
    refine (forItems_ends (fun pos => each pos _ 0 [] [] b linear children clear) _ _ _ _).bind
      fun added _ => ?_
    exact Ends.pure (map_key_addNodes added opened nodes)
  | .code _ _, _, _, _, _, _, _, _, _, _ => by
    rw [stmt]
    exact Ends.pure rfl
  | .element _ _, _, _, _, _, _, _, linear, _, _
  | .choice _ _, _, _, _, _, _, _, linear, _, _
  | .forEach _ _, _, _, _, _, _, _, linear, _, _ => by simp [Stmt.isLinear] at linear

/-- A block that passes the bracketing check fails only as its children do. -/
theorem block_ends : ∀ (stmts : List Stmt) (pos : Position) (outer : Option (List Json))
    (index : Nat) (opened : List OpenNode) (nodes : List ViewNode) (b : Balance),
    Stmt.areLinear stmts = true → (∀ m ∈ Stmt.openingsAll stmts, x.EndsChild ok allowed m) →
    (Balance.block (opened.map OpenNode.key) b stmts).faults = [] →
    Ends ok allowed (x.block pos outer index opened nodes stmts) fun _ => True
  | [], _, _, _, opened, _, _, _, _, clear => by
    cases opened with
    | nil =>
      rw [block]
      exact Ends.pure trivial
    | cons frame opened => simp [Balance.block, Balance.fail] at clear
  | s :: rest, pos, outer, index, opened, nodes, b, linear, children, clear => by
    have first := stmt_ends s
    have others := block_ends rest
    simp only [Stmt.areLinear, Bool.and_eq_true] at linear
    simp only [Stmt.openingsAll, List.mem_append] at children
    simp only [Balance.block] at clear
    rw [block]
    refine (first pos outer index opened nodes b linear.1 (fun m member => children m (.inl member))
      (Balance.faults_of_block rest _ _ clear)).bind ?_
    rintro ⟨opened', nodes'⟩ same
    -- the check goes on with the markers that the execution has open
    rw [← same] at clear
    exact others pos outer (index + 1) opened' nodes' _ linear.2
      (fun m member => children m (.inr member)) clear

/-- The arms of a conditional that pass the bracketing check fail only as their children do. -/
theorem arms_ends : ∀ (arms : List (BranchArm Stmt)) (pos : Position)
    (outer : Option (List Json)) (position : Nat) (b : Balance),
    Stmt.areLinearBranches arms = true → (∀ m ∈ Stmt.openingsBranches arms, x.EndsChild ok allowed m) →
    (Balance.branchArms b arms).faults = [] →
    Ends ok allowed (x.arm pos outer position arms) fun _ => True
  | [], _, _, _, _, _, _, _ => by
    rw [arm]
    exact Ends.pure trivial
  | ⟨condition, _, body⟩ :: rest, pos, outer, position, b, linear, children, clear => by
    have first := block_ends body
    have others := arms_ends rest
    simp only [Stmt.areLinearBranches, Bool.and_eq_true] at linear
    simp only [Stmt.openingsBranches, List.mem_append] at children
    simp only [Balance.branchArms] at clear
    cases position with
    | zero =>
      rw [arm]
      exact first pos outer 0 [] [] b linear.1 (fun m member => children m (.inl member))
        (Balance.faults_of_branchArms rest _ clear)
    | succ position =>
      rw [arm]
      exact others pos outer position _ linear.2 (fun m member => children m (.inr member)) clear

end

/-- A linear body that passes the bracketing check fails only as its children do. -/
theorem run_ends {body : List Stmt} (linear : Stmt.areLinear body = true)
    (children : ∀ m ∈ Stmt.openingsAll body, x.EndsChild ok allowed m)
    (clear : (Balance.body body).faults = []) : Ends ok allowed (x.run body) fun _ => True :=
  block_ends body {} none 0 [] [] {} linear children clear

/-- Rendering the child of a marker is safe, if it has one. -/
def RendersChild (x : BodyRunner) (ok : View → Prop) (deep : Prop) (m : OpenMarker) : Prop :=
  ∀ bindings, m.role = .component bindings → ∀ key locals,
    Safe ok deep (x.child key m.component bindings ⟨x.fields, locals⟩) fun _ => True

/-- A linear body that passes the bracketing check is executed without a fault if its children
    are. -/
theorem run_safe {body : List Stmt} (linear : Stmt.areLinear body = true)
    (children : ∀ m ∈ Stmt.openingsAll body, x.RendersChild ok deep m)
    (clear : (Balance.body body).faults = []) : Safe ok deep (x.run body) fun _ => True := by
  refine ExecM.safe_iff_ends.mpr (run_ends linear (fun m member bindings role key locals => ?_) clear)
  exact ExecM.safe_iff_ends.mp (children m member bindings role key locals)

end BodyRunner

end ReactiveView
