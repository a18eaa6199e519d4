import ReactiveView.Proofs.ModuleLowering
import ReactiveView.Proofs.ProviderWalks

/-!
# Faults of lowering

Lowering fails where code builds an element, where an argument does not fit its field, where a
default arm is misplaced or a consumer has no provider.  It never fails by the order of markers: the
elements that are open are closed in the right order, and what comes out of a body without markers
is bracketed.
-/

namespace ReactiveView

open List

/-! ## The ways to fail -/

/-- A result that is a failure only in the given ways. -/
def FailsOnly {ε α : Type} (allowed : ε → Prop) (result : Except ε α) : Prop :=
  ∀ e, result = .error e → allowed e

namespace FailsOnly

variable {ε ε' α β : Type} {allowed : ε → Prop} {allowed' : ε' → Prop}

theorem ok (a : α) : FailsOnly allowed (.ok a) := nofun

theorem error {e : ε} (holds : allowed e) : FailsOnly allowed (.error e : Except ε α) := by
  intro _ same
  cases same
  exact holds

theorem bind {r : Except ε α} {f : α → Except ε β} (first : FailsOnly allowed r)
    (second : ∀ a, FailsOnly allowed (f a)) : FailsOnly allowed (r >>= f) := by
  cases r with
  | ok a => exact second a
  | error e => exact .error (first e rfl)

theorem mapM {f : α → Except ε β} (each : ∀ a, FailsOnly allowed (f a)) (as : List α) :
    FailsOnly allowed (as.mapM f) := by
  induction as with
  | nil => exact .ok []
  | cons a as ih =>
    rw [mapM_cons]
    exact (each a).bind fun b => ih.bind fun bs => .ok (b :: bs)

theorem mapM_option {f : α → Except ε β} (each : ∀ a, FailsOnly allowed (f a)) (a? : Option α) :
    FailsOnly allowed (a?.mapM f) := by
  cases a? with
  | none => exact .ok none
  | some a =>
    rw [Option.mapM_some, map_eq_pure_bind]
    exact (each a).bind fun b => .ok (some b)

theorem mapError {r : Except ε α} {f : ε → ε'} (fails : FailsOnly allowed r)
    (change : ∀ e, allowed e → allowed' (f e)) : FailsOnly allowed' (r.mapError f) := by
  cases r with
  | ok a => exact .ok a
  | error e => exact .error (change e (fails e rfl))

end FailsOnly

/-- Lowering that fails only in the given ways, whatever is registered. -/
def LowerM.FailsOnly {α : Type} (allowed : Diagnostic → Prop) (m : LowerM α) : Prop :=
  ∀ s, ReactiveView.FailsOnly allowed (m.run.run s).1

namespace LowerM.FailsOnly

variable {α β : Type} {allowed : Diagnostic → Prop}

theorem pure (a : α) : FailsOnly allowed (Pure.pure a) := fun _ => .ok a

theorem throw {d : Diagnostic} (holds : allowed d) :
    FailsOnly allowed (MonadExcept.throw d : LowerM α) := fun _ => .error holds

theorem lift {r : Except Diagnostic α} (fails : ReactiveView.FailsOnly allowed r) :
    FailsOnly allowed (liftM r) := fun _ => fails

theorem bind {m : LowerM α} {f : α → LowerM β} (first : FailsOnly allowed m)
    (second : ∀ s a s', m.run.run s = (.ok a, s') → FailsOnly allowed (f a)) :
    FailsOnly allowed (m >>= f) := by
  intro s
  rw [run_bind]
  have fails := first s
  cases ran : m.run.run s with
  | mk result middle =>
    rw [ran] at fails
    cases result with
    | ok a => exact second s a middle ran middle
    | error d => exact .error (fails d rfl)

theorem mapM {f : α → LowerM β} {as : List α} (each : ∀ a ∈ as, FailsOnly allowed (f a)) :
    FailsOnly allowed (as.mapM f) := by
  induction as with
  | nil => exact .pure []
  | cons a as ih =>
    rw [forall_mem_cons] at each
    rw [mapM_cons]
    exact each.1.bind fun _ b _ _ => (ih each.2).bind fun _ bs _ _ => .pure (b :: bs)

end LowerM.FailsOnly

/-! ## Faults other than those of bracketing -/

/-- A fault that is none of bracketing. -/
def Fault.SparesTree (f : Fault) : Prop := f.rule ≠ .unbalancedTree

/-- A diagnostic of a fault that is none of bracketing. -/
def Diagnostic.SparesTree (d : Diagnostic) : Prop := d.fault.SparesTree

theorem Diagnostic.SparesTree.code {d : Diagnostic} (spares : d.SparesTree) :
    d.report.code ≠ Rule.unbalancedTree.code := by
  change d.fault.rule.code ≠ _
  unfold SparesTree Fault.SparesTree at spares
  generalize d.fault.rule = rule at spares ⊢
  cases rule with
  | unbalancedTree => exact absurd rfl spares
  | _ => decide

namespace Script.Names

variable (names : Names)

theorem substitute_sparesTree (offset : Nat) (code : String) (tree : Node) :
    FailsOnly Fault.SparesTree (names.substitute offset code tree) := by
  unfold substitute
  split
  · exact .error (by simp [Fault.SparesTree, Fault.rule])
  · exact .ok _

theorem expression_sparesTree (code : String) (parser : Parser) :
    FailsOnly Fault.SparesTree (names.expression code parser) := by
  unfold expression
  split
  · split
    · exact names.substitute_sparesTree _ _ _
    · exact .ok _
  · exact .ok _

theorem statement_sparesTree (code : String) (parser : Parser) :
    FailsOnly Fault.SparesTree (names.statement code parser) := by
  unfold statement
  split
  · split
    · exact names.substitute_sparesTree _ _ _
    · exact .ok _
  · exact .ok _

end Script.Names

namespace CallSite

theorem assign_sparesTree (child : String) (table : FieldTable) (args : List Argument)
    (slots : List FieldRow) (done : List (String × Argument)) :
    FailsOnly Fault.SparesTree (assign child table slots done args) := by
  fun_induction assign child table slots done args with
  | case1 => exact .ok _
  | case2 | case3 | case5 | case6 => exact .error (by simp [Fault.SparesTree, Fault.rule])
  | case4 _ _ _ _ _ _ _ _ ih => exact ih
  | case7 _ _ _ _ _ _ _ ih => exact ih

theorem bindField_sparesTree (site : CallSite) (child : String) (row : FieldRow)
    (argument : Option Argument) :
    FailsOnly Fault.SparesTree (site.bindField child row argument) := by
  fun_cases bindField site child row argument <;>
    first
    | exact .ok _
    | exact .error (by simp [Fault.SparesTree, Fault.rule])

theorem bindFields_sparesTree (site : CallSite) (child : String)
    (supplied : List (String × Argument)) (rows : List FieldRow) :
    FailsOnly Fault.SparesTree (site.bindFields child supplied rows) := by
  induction rows with
  | nil => exact .ok []
  | cons row rows ih =>
    exact (bindField_sparesTree site child row _).bind fun _ => ih.bind fun _ => .ok _

theorem bind_sparesTree (site : CallSite) (child : Component) (args : List Argument) :
    FailsOnly Fault.SparesTree (site.bind child args) :=
  (assign_sparesTree child.name _ args _ []).bind fun _ => bindFields_sparesTree site _ _ _

end CallSite

namespace BodyContext

variable (ctx : BodyContext) (method : String)

theorem reporting_sparesTree {α : Type} {result : Except Fault α} (location : Location)
    (fails : FailsOnly Fault.SparesTree result) :
    FailsOnly Diagnostic.SparesTree (ctx.reporting location result) :=
  fails.mapError fun _ spares => spares

theorem expression_sparesTree (location : Location) (code : String) :
    FailsOnly Diagnostic.SparesTree (ctx.expression location code) :=
  ctx.reporting_sparesTree location (ctx.names.expression_sparesTree code ctx.parser)

theorem statement_sparesTree (location : Location) (code : String) :
    FailsOnly Diagnostic.SparesTree (ctx.statement location code) :=
  ctx.reporting_sparesTree location (ctx.names.statement_sparesTree code ctx.parser)

theorem chained_sparesTree (location : Location) (a : Attribute) :
    FailsOnly Diagnostic.SparesTree (ctx.chained location a) :=
  (FailsOnly.mapM (ctx.expression_sparesTree location) a.args).bind fun _ => .ok _

theorem boundArgument_sparesTree (location : Location) (b : BoundArgument) :
    FailsOnly Diagnostic.SparesTree (ctx.boundArgument location b) := by
  unfold boundArgument
  split
  · exact (ctx.expression_sparesTree location _).bind fun _ => .ok _
  · exact .ok b

theorem openElement_sparesTree (head : Element) :
    FailsOnly Diagnostic.SparesTree (ctx.openElement head) := by
  refine (FailsOnly.mapM (ctx.chained_sparesTree head.location) head.chain).bind fun _ => ?_
  split
  · have bound := CallSite.bind_sparesTree ⟨ctx.component, ctx.fields⟩
    refine (ctx.reporting_sparesTree head.location (bound _ head.args)).bind fun bound => ?_
    exact (FailsOnly.mapM (ctx.boundArgument_sparesTree head.location) bound).bind fun _ => .ok _
  · have each : ∀ a : Argument, FailsOnly Diagnostic.SparesTree
        (ctx.expression head.location a.value) :=
      fun a => ctx.expression_sparesTree head.location a.value
    exact (FailsOnly.mapM each head.args).bind fun _ => .ok _

theorem loopHead_sparesTree (loop : Loop) :
    FailsOnly Diagnostic.SparesTree (ctx.loopHead loop) :=
  (ctx.expression_sparesTree loop.location loop.source).bind fun _ =>
    (FailsOnly.mapM_option (ctx.expression_sparesTree loop.location) loop.keyGenerator).bind
      fun _ => .ok _

theorem condition_sparesTree (location : Location) (condition : Option String) :
    LowerM.FailsOnly Diagnostic.SparesTree
      (condition.mapM fun code => liftM (ctx.expression location code) :
        LowerM (Option String)) := by
  cases condition with
  | none => exact .pure none
  | some code =>
    rw [Option.mapM_some, map_eq_pure_bind]
    exact (LowerM.FailsOnly.lift (ctx.expression_sparesTree location code)).bind
      fun _ text _ _ => .pure (some text)

mutual

theorem lowerStmt_sparesTree : ∀ stmt : Stmt,
    LowerM.FailsOnly Diagnostic.SparesTree (ctx.lowerStmt method stmt)
  | .element head children => by
    have nested := lowerStmts_sparesTree children
    rw [lowerStmt]
    exact (LowerM.FailsOnly.lift (ctx.openElement_sparesTree head)).bind fun _ _ _ _ =>
      nested.bind fun _ _ _ _ => .pure _
  | .choice arms location => by
    have nested := fun site => lowerChoiceArms_sparesTree site location arms
    rw [lowerStmt]
    cases misplacedElse? 0 arms with
    | some position =>
      exact .throw (by simp [Diagnostic.SparesTree, Fault.SparesTree, Fault.rule, diagnostic])
    | none =>
      have site : LowerM.FailsOnly Diagnostic.SparesTree (newSite method arms.length location) :=
        fun s => .ok s.nextSite
      exact site.bind fun _ site _ _ => (nested site 0).bind fun _ _ _ _ => .pure _
  | .forEach loop body => by
    have nested := lowerStmts_sparesTree body
    rw [lowerStmt]
    exact (LowerM.FailsOnly.lift (ctx.loopHead_sparesTree loop)).bind fun _ _ _ _ =>
      nested.bind fun _ _ _ _ => .pure _
  | .code text location => by
    rw [lowerStmt]
    exact (LowerM.FailsOnly.lift (ctx.statement_sparesTree location text)).bind fun _ _ _ _ =>
      .pure _
  | .opening marker => by
    rw [lowerStmt]
    exact .pure _
  | .closing marker => by
    rw [lowerStmt]
    exact .pure _
  | .branch site arms location => by
    have nested := lowerKnownArms_sparesTree arms
    have known : LowerM.FailsOnly Diagnostic.SparesTree
        (knownSite method site arms.length location) := fun _ => .ok ()
    rw [lowerStmt]
    exact known.bind fun _ _ _ _ => nested.bind fun _ _ _ _ => .pure _
  | .items params keyGenerator body => by
    have nested := lowerStmts_sparesTree body
    rw [lowerStmt]
    exact nested.bind fun _ _ _ _ => .pure _

theorem lowerStmts_sparesTree : ∀ body : List Stmt,
    LowerM.FailsOnly Diagnostic.SparesTree (ctx.lowerStmts method body)
  | [] => by
    rw [lowerStmts]
    exact .pure []
  | stmt :: rest => by
    have first := lowerStmt_sparesTree stmt
    have others := lowerStmts_sparesTree rest
    rw [lowerStmts]
    exact first.bind fun _ _ _ _ => others.bind fun _ _ _ _ => .pure _

theorem lowerChoiceArms_sparesTree (site : UInt32) (location : Location) :
    ∀ (arms : List (Arm Stmt)) (index : Nat), LowerM.FailsOnly Diagnostic.SparesTree
      (ctx.lowerChoiceArms method site location index arms)
  | [], index => by
    rw [lowerChoiceArms]
    exact .pure []
  | ⟨condition, body⟩ :: rest, index => by
    have first := lowerStmts_sparesTree body
    have others := lowerChoiceArms_sparesTree site location rest
    have branch : LowerM.FailsOnly Diagnostic.SparesTree (branchOf site index) := fun _ => .ok _
    rw [lowerChoiceArms]
    exact branch.bind fun _ _ _ _ => (ctx.condition_sparesTree location condition).bind
      fun _ _ _ _ => first.bind fun _ _ _ _ => (others (index + 1)).bind fun _ _ _ _ => .pure _

theorem lowerKnownArms_sparesTree : ∀ arms : List (BranchArm Stmt),
    LowerM.FailsOnly Diagnostic.SparesTree (ctx.lowerKnownArms method arms)
  | [] => by
    rw [lowerKnownArms]
    exact .pure []
  | ⟨condition, branchId, body⟩ :: rest => by
    have first := lowerStmts_sparesTree body
    have others := lowerKnownArms_sparesTree rest
    rw [lowerKnownArms]
    exact first.bind fun _ _ _ _ => others.bind fun _ _ _ _ => .pure _

end

end BodyContext

/-! ## Lowered bodies are bracketed -/

namespace Stmt

mutual

/-- Whether a statement has no opening and no closing marker in it. -/
def isUnmarked : Stmt → Bool
  | .element _ children => areUnmarked children
  | .choice arms _ => areUnmarkedArms arms
  | .forEach _ body => areUnmarked body
  | .code _ _ => true
  | .opening _ | .closing _ => false
  | .branch _ arms _ => areUnmarkedBranches arms
  | .items _ _ body => areUnmarked body

/-- Whether statements have no opening and no closing marker in them. -/
def areUnmarked : List Stmt → Bool
  | [] => true
  | s :: rest => s.isUnmarked && areUnmarked rest

/-- Whether the arms of a conditional have no opening and no closing marker in them. -/
def areUnmarkedArms : List (Arm Stmt) → Bool
  | [] => true
  | ⟨_, body⟩ :: rest => areUnmarked body && areUnmarkedArms rest

/-- Whether the arms of a lowered conditional have no opening and no closing marker in them. -/
def areUnmarkedBranches : List (BranchArm Stmt) → Bool
  | [] => true
  | ⟨_, _, body⟩ :: rest => areUnmarked body && areUnmarkedBranches rest

end

end Stmt

namespace Balance

/-- Statements that the bracketing check only counts: they close what they open and nothing else. -/
def Neutral (stmts : List Stmt) : Prop :=
  ∀ (frame : Frame) (b : Balance) (rest : List Stmt),
    ∃ markers, block frame b (stmts ++ rest) = block frame { b with markers } rest

/-- Arms that the bracketing check only counts. -/
def NeutralArms (arms : List (BranchArm Stmt)) : Prop :=
  ∀ b : Balance, ∃ markers, branchArms b arms = { b with markers }

namespace Neutral

theorem nil : Neutral [] := fun _ b _ => ⟨b.markers, rfl⟩

theorem append {stmts others : List Stmt} (first : Neutral stmts) (second : Neutral others) :
    Neutral (stmts ++ others) := by
  intro frame b rest
  obtain ⟨_, head⟩ := first frame b (others ++ rest)
  obtain ⟨markers, tail⟩ := second frame _ rest
  exact ⟨markers, by rw [append_assoc, head, tail]⟩

theorem code (text : String) (location : Location) : Neutral [.code text location] :=
  fun _ b _ => ⟨b.markers, rfl⟩

theorem enclosed {inner : List Stmt} (neutral : Neutral inner) (m : OpenMarker) :
    Neutral (.opening m :: inner ++ [.closing ⟨m.component, m.role.branchId?⟩]) := by
  intro frame b rest
  obtain ⟨markers, same⟩ := neutral ((m.component, m.role.branchId?) :: frame) b.count
    (.closing ⟨m.component, m.role.branchId?⟩ :: rest)
  refine ⟨markers + 1, ?_⟩
  calc block frame b (.opening m :: inner ++ [.closing ⟨m.component, m.role.branchId?⟩] ++ rest)
      = block ((m.component, m.role.branchId?) :: frame) b.count
          (inner ++ .closing ⟨m.component, m.role.branchId?⟩ :: rest) := by simp [block, stmt]
    _ = _ := same
    _ = block frame { b with markers := markers + 1 } rest := by simp [block, stmt, close, count]

theorem items {inner : List Stmt} (neutral : Neutral inner) (params : List String)
    (keyGenerator : Option String) : Neutral [.items params keyGenerator inner] := by
  intro frame b rest
  obtain ⟨markers, same⟩ := neutral [] b []
  rw [append_nil] at same
  exact ⟨markers, by rw [singleton_append, block, stmt, same]; rfl⟩

theorem branch {arms : List (BranchArm Stmt)} (neutral : NeutralArms arms) (site : UInt32)
    (location : Location) : Neutral [.branch site arms location] := by
  intro frame b rest
  obtain ⟨markers, same⟩ := neutral b
  exact ⟨markers, by rw [singleton_append, block, stmt, same]⟩

theorem faults {stmts : List Stmt} (neutral : Neutral stmts) : (body stmts).faults = [] := by
  obtain ⟨markers, same⟩ := neutral [] {} []
  rw [append_nil] at same
  rw [body, same]
  rfl

end Neutral

theorem NeutralArms.cons {inner : List Stmt} {arms : List (BranchArm Stmt)}
    (first : Neutral inner) (others : NeutralArms arms) (condition : Option String)
    (branchId : UInt32) : NeutralArms (⟨condition, branchId, inner⟩ :: arms) := by
  intro b
  obtain ⟨markers, head⟩ := first [] b []
  obtain ⟨markers', tail⟩ := others { b with markers }
  rw [append_nil] at head
  exact ⟨markers', by rw [branchArms, head]; exact tail⟩

end Balance

namespace BodyContext

open Balance (Neutral NeutralArms)

variable {ctx : BodyContext} {method : String}

/-- The marker of an element has the name of the element and is no arm. -/
theorem openElement_key {head : Element} {marker : OpenMarker}
    (opened : ctx.openElement head = .ok marker) :
    marker.component = head.name ∧ marker.role.branchId? = none := by
  cases names : ctx.child? head.name with
  | none =>
    rw [openElement_plain names opened]
    exact ⟨rfl, rfl⟩
  | some child =>
    obtain ⟨bound, _, rfl⟩ := openElement_child names opened
    exact ⟨rfl, rfl⟩

mutual

theorem Lowers.neutral {stmt : Stmt} {out : List Stmt} {s s' : LoweringState} :
    Lowers ctx method stmt s out s' → stmt.isUnmarked = true → Neutral out
  | .element opened body, unmarked => by
    obtain ⟨name, plain⟩ := openElement_key opened
    have enclosed := (body.neutral unmarked).enclosed
    rw [← name, ← plain]
    exact enclosed _
  | .choice _ each, unmarked => (Neutral.branch (each.neutral unmarked) _ _).enclosed ⟨_, _, _, _, _⟩
  | .forEach _ each, unmarked =>
    (Neutral.items (each.neutral unmarked) _ _).enclosed ⟨_, _, _, _, _⟩
  | .code _, _ => .code _ _
  | .branch each, unmarked => .branch (each.neutral unmarked) _ _
  | .items each, unmarked => .items (each.neutral unmarked) _ _

theorem LowersAll.neutral {body out : List Stmt} {s s' : LoweringState} :
    LowersAll ctx method body s out s' → Stmt.areUnmarked body = true → Neutral out
  | .nil, _ => .nil
  | .cons head tail, unmarked => by
    rw [Stmt.areUnmarked, Bool.and_eq_true] at unmarked
    exact (head.neutral unmarked.1).append (tail.neutral unmarked.2)

theorem LowersArms.neutral {site : UInt32} {location : Location} {index : Nat}
    {arms : List (Arm Stmt)} {out : List (BranchArm Stmt)} {s s' : LoweringState} :
    LowersArms ctx method site location index arms s out s' → Stmt.areUnmarkedArms arms = true →
      NeutralArms out
  | .nil, _ => fun b => ⟨b.markers, rfl⟩
  | .cons _ head tail, unmarked => by
    rw [Stmt.areUnmarkedArms, Bool.and_eq_true] at unmarked
    exact .cons ((head.neutral unmarked.1).enclosed ⟨_, _, _, _, _⟩) (tail.neutral unmarked.2) _ _

theorem LowersKnown.neutral {arms out : List (BranchArm Stmt)} {s s' : LoweringState} :
    LowersKnown ctx method arms s out s' → Stmt.areUnmarkedBranches arms = true → NeutralArms out
  | .nil, _ => fun b => ⟨b.markers, rfl⟩
  | .cons head tail, unmarked => by
    rw [Stmt.areUnmarkedBranches, Bool.and_eq_true] at unmarked
    exact .cons (head.neutral unmarked.1) (tail.neutral unmarked.2) _ _

end

end BodyContext

/-! ## Components -/

theorem consumerFailures_sparesTree {file name : String} {components : List Component}
    {d : Diagnostic} (failed : (consumerFailures file components).lookup name = some d) :
    d.SparesTree := by
  obtain ⟨field, key, fault⟩ :=
    Resolution.noProvider_of_failures (name, d) (mem_consumerFailures failed)
  dsimp only at fault
  simp [Diagnostic.SparesTree, fault, Fault.SparesTree, Fault.rule]

theorem Field.fault?_sparesTree {component : String} {provided : List String} {f : Field}
    {fault : Fault} (found : f.fault? component provided = some fault) : fault.SparesTree := by
  unfold Field.fault? at found
  split at found
  case h_1 | h_2 | h_3 =>
    cases found
    simp [Fault.SparesTree, Fault.rule]
  case h_4 =>
    simp only at found
    split at found
    · cases found
      simp [Fault.SparesTree, Fault.rule]
    · cases found
  case h_5 => cases found

theorem checkFields_sparesTree (file component : String) (fields : List Field)
    (provided : List String) :
    FailsOnly Diagnostic.SparesTree (checkFields file component provided fields) := by
  induction fields generalizing provided with
  | nil => exact .ok ()
  | cons f fields ih =>
    unfold checkFields
    split
    next fault found => exact .error (f.fault?_sparesTree found)
    · exact ih _

/-- Whether no body of a component has opening or closing markers. -/
def Component.isUnmarked (c : Component) : Bool :=
  Stmt.areUnmarked c.render.body && c.methods.all fun m => Stmt.areUnmarked m.body

namespace ModuleScope

variable (scope : ModuleScope) (c : Component)

theorem lowerBody_sparesTree {method : String} {body : List Stmt}
    (unmarked : Stmt.areUnmarked body = true) :
    LowerM.FailsOnly Diagnostic.SparesTree
      (scope.lowerBody c c.fieldTable.reactiveNames method body) := by
  have lowers := (scope.bodyOf c).lowerStmts_sparesTree method body
  rw [← BodyContext.lower_eq_lowerStmts] at lowers
  refine lowers.bind fun s out s' ran => ?_
  have neutral := (BodyContext.lower_ok_iff.mp ran).neutral unmarked
  have checked : scope.checkBalance c out = .ok () := checkBalance_ok_iff.mpr neutral.faults
  rw [checked]
  exact .pure out

theorem ordinaryBody_sparesTree (ctx : BodyContext) (m : Method) :
    FailsOnly Diagnostic.SparesTree (ordinaryBody ctx m) := by
  refine FailsOnly.mapM (fun stmt => ?_) m.body
  split
  · exact (ctx.statement_sparesTree _ _).bind fun _ => .ok _
  · exact .error (by simp [Diagnostic.SparesTree, Fault.SparesTree, Fault.rule,
      BodyContext.diagnostic])

theorem lowerMember_sparesTree {m : Member}
    (unmarked : ∀ method, m = .method method → Stmt.areUnmarked method.body = true) :
    LowerM.FailsOnly Diagnostic.SparesTree
      (scope.lowerMember c c.fieldTable.reactiveNames m) := by
  cases m with
  | method m =>
    by_cases builder : m.isBuilder
    · simp only [lowerMember, if_pos builder]
      exact (scope.lowerBody_sparesTree c (unmarked m rfl)).bind fun _ _ _ _ => .pure _
    · simp only [lowerMember, if_neg builder]
      exact (LowerM.FailsOnly.lift (ordinaryBody_sparesTree _ m)).bind fun _ _ _ _ => .pure _
  | field _ | wrapper _ | accessors _ => exact .pure _

theorem lowerBodies_sparesTree (unmarked : c.isUnmarked = true) :
    LowerM.FailsOnly Diagnostic.SparesTree (scope.lowerBodies c
      ⟨c.loweredMembers, c.fieldTable.providedKeys, c.fieldTable.reactiveNames⟩) := by
  rw [Component.isUnmarked, Bool.and_eq_true, all_eq_true] at unmarked
  refine (scope.lowerBody_sparesTree c unmarked.1).bind fun _ _ _ _ => ?_
  refine (LowerM.FailsOnly.mapM fun m member => ?_).bind fun _ _ _ _ => .pure _
  refine scope.lowerMember_sparesTree c fun method same => ?_
  exact unmarked.2 method (Component.mem_methods_of_mem_loweredMembers (same ▸ member))

/-- The lowering of a component without markers never fails by their order. -/
theorem lowerComponent_sparesTree (m : Module) (options : Options) (parser : Script.Parser)
    (unmarked : c.isUnmarked = true) :
    FailsOnly Diagnostic.SparesTree ((ModuleScope.of m options parser).lowerComponent c) := by
  have bodies := (ModuleScope.of m options parser).lowerBodies_sparesTree c unmarked {}
  have fields :
      FailsOnly Diagnostic.SparesTree (c.lowerFields (ModuleScope.of m options parser).file) :=
    (checkFields_sparesTree _ _ _ _).bind fun _ => .ok _
  cases lowered : c.lowerFields (ModuleScope.of m options parser).file with
  | error d =>
    rw [lowerComponent, lowered]
    exact .error (fields d lowered)
  | ok fields =>
    obtain ⟨_, rfl⟩ := Component.lowerFields_ok_iff.mp lowered
    rw [lowerComponent, lowered]
    cases failure : (ModuleScope.of m options parser).failures.lookup c.name with
    | some d => exact .error (consumerFailures_sparesTree failure)
    | none => exact bodies.bind fun _ => .ok _

end ModuleScope

/-- A body is lowered as by recursion on its statements, with the same statements or the same failure
    and with the same conditionals registered.  No failure is one of bracketing, no element,
    conditional or loop is left, and a body without markers becomes bracketed, so that components
    without markers never fail by the order of markers. -/
theorem lowering_recursive_and_bracketed (m : Module) (options : Options) (parser : Script.Parser) :
    (∀ (ctx : BodyContext) (method : String) (body : List Stmt) (s : LoweringState),
      (ctx.lower method body).run.run s = (ctx.lowerStmts method body).run.run s ∧
      (∀ d s', (ctx.lower method body).run.run s = (.error d, s') →
        d.report.code ≠ Rule.unbalancedTree.code) ∧
      ∀ out s', (ctx.lower method body).run.run s = (.ok out, s') →
        Stmt.areLinear out = true ∧
          (Stmt.areUnmarked body = true → (Balance.body out).faults = [])) ∧
    ∀ c : Component, c.isUnmarked = true →
      ∀ d, (ModuleScope.of m options parser).lowerComponent c = .error d →
        d.report.code ≠ Rule.unbalancedTree.code := by
  refine ⟨fun ctx method body s => ⟨?_, ?_, ?_⟩, ?_⟩
  · rw [BodyContext.lower_eq_lowerStmts]
  · intro d s' failed
    rw [BodyContext.lower_eq_lowerStmts] at failed
    have spares := ctx.lowerStmts_sparesTree method body s
    rw [failed] at spares
    exact (spares d rfl).code
  · intro out s' ran
    have lowers := BodyContext.lower_ok_iff.mp ran
    exact ⟨lowers.linear, fun unmarked => (lowers.neutral unmarked).faults⟩
  · intro c unmarked d failed
    exact (ModuleScope.lowerComponent_sparesTree c m options parser unmarked d failed).code

/-- A component whose default arm comes first. -/
def switchedElse : Component where
  name := "Switch"
  render := ⟨buildName, [.element ⟨"Column", [], [], {}⟩
    [.choice [⟨none, []⟩, ⟨some "this.on", []⟩] ⟨2, 4⟩]]⟩

theorem lowering_recursive_and_bracketed_switchedElse :
    ∃ d, (ModuleScope.of ⟨"", [switchedElse]⟩ {}).lowerComponent switchedElse = .error d ∧
      d.fault = .misplacedElse 0 ∧ d.report.code ≠ Rule.unbalancedTree.code := by
  have failed : (ModuleScope.of ⟨"", [switchedElse]⟩ {}).lowerComponent switchedElse =
      .error ⟨.misplacedElse 0, "", "Switch", ⟨2, 4⟩⟩ := by
    simp only [ModuleScope.lowerComponent, ModuleScope.lowerBodies, ModuleScope.lowerBody,
      BodyContext.lower_eq_lowerStmts]
    rfl
  exact ⟨_, failed, rfl, (lowering_recursive_and_bracketed _ _ _).2 _ rfl _ failed⟩

end ReactiveView
