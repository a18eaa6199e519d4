import ReactiveView.Proofs.RecursiveLowering

/-!
# Rules of lowering

What a successful lowering does, form by form: `Lowers ctx method stmt s out s'` says that `stmt`
becomes `out` and that the registered conditionals `s` become `s'`.  The rules are exact
(`lower_ok_iff`), so a property of lowered bodies is proved by one case for each rule, and a body is
lowered as soon as the rules apply to it.
-/

namespace ReactiveView

namespace LoweringState

/-- The state after a conditional has got the next site number. -/
def afterNew (s : LoweringState) (method : String) (arms : Nat) (location : Location) :
    LoweringState :=
  ⟨s.registry.register s.nextSite method arms location, s.nextSite + 1⟩

/-- The state after a lowered conditional is registered again. -/
def afterKnown (s : LoweringState) (method : String) (site : UInt32) (arms : Nat)
    (location : Location) : LoweringState :=
  ⟨s.registry.register site method arms location, max s.nextSite (site + 1)⟩

/-- The branch of an arm. -/
def branch (s : LoweringState) (site : UInt32) (index : Nat) : UInt32 :=
  (s.registry.branchId? site index).getD (UInt32.ofNat index)

end LoweringState

namespace BodyContext

mutual

/-- A statement is lowered. -/
inductive Lowers (ctx : BodyContext) (method : String) :
    Stmt → LoweringState → List Stmt → LoweringState → Prop
  | element {head : Element} {children inner : List Stmt} {marker : OpenMarker}
      {s s' : LoweringState} (opened : ctx.openElement head = .ok marker)
      (body : LowersAll ctx method children s inner s') :
      Lowers ctx method (.element head children) s
        (.opening marker :: inner ++ [.closing ⟨head.name, none⟩]) s'
  | choice {arms : List (Arm Stmt)} {location : Location} {out : List (BranchArm Stmt)}
      {s s' : LoweringState} (placed : misplacedElse? 0 arms = none)
      (each : LowersArms ctx method s.nextSite location 0 arms
        (s.afterNew method arms.length location) out s') :
      Lowers ctx method (.choice arms location) s (conditional s.nextSite location out) s'
  | forEach {loop loop' : Loop} {body inner : List Stmt} {s s' : LoweringState}
      (head : ctx.loopHead loop = .ok loop') (each : LowersAll ctx method body s inner s') :
      Lowers ctx method (.forEach loop body) s (loopBody loop' inner) s'
  | code {text text' : String} {location : Location} {s : LoweringState}
      (kept : ctx.statement location text = .ok text') :
      Lowers ctx method (.code text location) s [.code text' location] s
  | opening {marker : OpenMarker} {s : LoweringState} :
      Lowers ctx method (.opening marker) s [.opening marker] s
  | closing {marker : CloseMarker} {s : LoweringState} :
      Lowers ctx method (.closing marker) s [.closing marker] s
  | branch {site : UInt32} {arms out : List (BranchArm Stmt)} {location : Location}
      {s s' : LoweringState}
      (each : LowersKnown ctx method arms (s.afterKnown method site arms.length location) out s') :
      Lowers ctx method (.branch site arms location) s [.branch site out location] s'
  | items {params : List String} {keyGenerator : Option String} {body inner : List Stmt}
      {s s' : LoweringState} (each : LowersAll ctx method body s inner s') :
      Lowers ctx method (.items params keyGenerator body) s [.items params keyGenerator inner] s'

/-- Statements are lowered one after the other. -/
inductive LowersAll (ctx : BodyContext) (method : String) :
    List Stmt → LoweringState → List Stmt → LoweringState → Prop
  | nil {s : LoweringState} : LowersAll ctx method [] s [] s
  | cons {stmt : Stmt} {rest out outs : List Stmt} {s s' s'' : LoweringState}
      (head : Lowers ctx method stmt s out s') (tail : LowersAll ctx method rest s' outs s'') :
      LowersAll ctx method (stmt :: rest) s (out ++ outs) s''

/-- The arms of a conditional are lowered, the first of them at position `index`. -/
inductive LowersArms (ctx : BodyContext) (method : String) :
    UInt32 → Location → Nat → List (Arm Stmt) → LoweringState → List (BranchArm Stmt) →
      LoweringState → Prop
  | nil {site : UInt32} {location : Location} {index : Nat} {s : LoweringState} :
      LowersArms ctx method site location index [] s [] s
  | cons {site : UInt32} {location : Location} {index : Nat}
      {condition condition' : Option String} {body inner : List Stmt} {rest : List (Arm Stmt)}
      {outs : List (BranchArm Stmt)} {s s' s'' : LoweringState}
      (kept : condition.mapM (ctx.expression location) = .ok condition')
      (head : LowersAll ctx method body s inner s')
      (tail : LowersArms ctx method site location (index + 1) rest s' outs s'') :
      LowersArms ctx method site location index (⟨condition, body⟩ :: rest) s
        (⟨condition', s.branch site index,
          armBody site (s.branch site index) location inner⟩ :: outs) s''

/-- The arms of a lowered conditional are lowered. -/
inductive LowersKnown (ctx : BodyContext) (method : String) :
    List (BranchArm Stmt) → LoweringState → List (BranchArm Stmt) → LoweringState → Prop
  | nil {s : LoweringState} : LowersKnown ctx method [] s [] s
  | cons {condition : Option String} {branchId : UInt32} {body inner : List Stmt}
      {rest outs : List (BranchArm Stmt)} {s s' s'' : LoweringState}
      (head : LowersAll ctx method body s inner s')
      (tail : LowersKnown ctx method rest s' outs s'') :
      LowersKnown ctx method (⟨condition, branchId, body⟩ :: rest) s
        (⟨condition, branchId, inner⟩ :: outs) s''

end

end BodyContext

/-! ## Success of a computation -/

theorem except_bind_ok_iff {ε α β : Type} {m : Except ε α} {f : α → Except ε β} {b : β} :
    (m >>= f) = .ok b ↔ ∃ a, m = .ok a ∧ f a = .ok b := by
  cases m with
  | error d => simp [bind, Except.bind]
  | ok a => simp [bind, Except.bind]

/-- If every success of `f` is known to be `g`, then so is a success of all of them. -/
theorem mapM_ok_eq_map {ε α β : Type} {f : α → Except ε β} {g : α → β}
    (known : ∀ a b, f a = .ok b → b = g a) {as : List α} {bs : List β}
    (ran : as.mapM f = .ok bs) : bs = as.map g := by
  induction as generalizing bs with
  | nil =>
    cases ran
    rfl
  | cons a as ih =>
    rw [List.mapM_cons, except_bind_ok_iff] at ran
    obtain ⟨b, head, ran⟩ := ran
    obtain ⟨rest, tail, same⟩ := except_bind_ok_iff.mp ran
    cases same
    rw [known a b head, ih tail]
    rfl

namespace LowerM

variable {α β : Type} {s s' : LoweringState} {a : α}

theorem run_bind (m : LowerM α) (f : α → LowerM β) (s : LoweringState) :
    (m >>= f).run.run s =
      match m.run.run s with
      | (.ok a, middle) => (f a).run.run middle
      | (.error d, middle) => (.error d, middle) := by
  simp only [ExceptT.run_bind, StateT.run_bind]
  change (match m.run.run s with | (result, middle) => _) = _
  cases m.run.run s with
  | mk result middle => cases result <;> rfl

theorem bind_ok_iff {m : LowerM α} {f : α → LowerM β} {b : β} :
    (m >>= f).run.run s = (.ok b, s') ↔
      ∃ a middle, m.run.run s = (.ok a, middle) ∧ (f a).run.run middle = (.ok b, s') := by
  rw [run_bind]
  cases m.run.run s with
  | mk result middle =>
    cases result with
    | error d =>
      constructor
      · intro same
        cases same
      · rintro ⟨_, _, same, _⟩
        cases same
    | ok a =>
      constructor
      · intro ran
        exact ⟨a, middle, rfl, ran⟩
      · rintro ⟨_, _, same, ran⟩
        cases same
        exact ran

theorem pure_ok_iff {b : α} : (pure a : LowerM α).run.run s = (.ok b, s') ↔ a = b ∧ s = s' := by
  change (Except.ok a, s) = (Except.ok b, s') ↔ _
  rw [Prod.mk.injEq, Except.ok.injEq]

theorem lift_ok_iff {m : Except Diagnostic α} :
    (liftM m : LowerM α).run.run s = (.ok a, s') ↔ m = .ok a ∧ s = s' := by
  change (m, s) = (.ok a, s') ↔ _
  rw [Prod.mk.injEq]

theorem throw_ok_iff {d : Diagnostic} : (throw d : LowerM α).run.run s = (.ok a, s') ↔ False := by
  change ((Except.error d : Except Diagnostic α), s) = _ ↔ _
  simp

end LowerM

namespace BodyContext

variable {ctx : BodyContext} {method : String} {location : Location} {site : UInt32}
  {s s' : LoweringState}

theorem newSite_ok_iff {arms : Nat} :
    (newSite method arms location).run.run s = (.ok site, s') ↔
      s.nextSite = site ∧ s.afterNew method arms location = s' := by
  change (Except.ok s.nextSite, s.afterNew method arms location) = (Except.ok site, s') ↔ _
  simp

theorem knownSite_ok_iff {arms : Nat} {done : Unit} :
    (knownSite method site arms location).run.run s = (.ok done, s') ↔
      s.afterKnown method site arms location = s' := by
  change (Except.ok (), s.afterKnown method site arms location) = (Except.ok done, s') ↔ _
  simp

theorem branchOf_ok_iff {branchId : UInt32} {index : Nat} :
    (branchOf site index).run.run s = (.ok branchId, s') ↔ s.branch site index = branchId ∧ s = s' := by
  change (Except.ok (s.branch site index), s) = (Except.ok branchId, s') ↔ _
  simp

theorem condition_ok_iff {condition condition' : Option String} :
    (condition.mapM fun code => liftM (ctx.expression location code) :
        LowerM (Option String)).run.run s = (.ok condition', s') ↔
      condition.mapM (ctx.expression location) = .ok condition' ∧ s = s' := by
  cases condition with
  | none =>
    simp only [Option.mapM_none, LowerM.pure_ok_iff]
    simp [pure, Except.pure]
  | some code =>
    simp only [Option.mapM_some, map_eq_pure_bind, LowerM.bind_ok_iff, LowerM.lift_ok_iff,
      LowerM.pure_ok_iff]
    cases ctx.expression location code with
    | error d => simp [bind, Except.bind]
    | ok text =>
      simp only [bind, Except.bind, pure, Except.pure, Except.ok.injEq]
      grind

/-! ## The rules are exact -/

mutual

theorem lowerStmt_ok_iff : ∀ (stmt : Stmt) {s s' : LoweringState} {out : List Stmt},
    (ctx.lowerStmt method stmt).run.run s = (.ok out, s') ↔ Lowers ctx method stmt s out s'
  | .element head children, s, s', out => by
    have nested := @lowerStmts_ok_iff children
    simp only [lowerStmt, LowerM.bind_ok_iff, LowerM.lift_ok_iff, LowerM.pure_ok_iff]
    constructor
    · rintro ⟨marker, _, ⟨opened, rfl⟩, inner, _, body, rfl, rfl⟩
      exact .element opened (nested.mp body)
    · intro lowered
      cases lowered with
      | element opened body =>
        exact ⟨_, _, ⟨opened, rfl⟩, _, _, nested.mpr body, rfl, rfl⟩
  | .choice arms location, s, s', out => by
    have nested := @lowerChoiceArms_ok_iff arms
    simp only [lowerStmt]
    cases placed : misplacedElse? 0 arms with
    -- an `else` before the last arm is a fault, and no rule applies to it
    | some position =>
      simp only [throw_bind, LowerM.throw_ok_iff, false_iff]
      intro lowered
      cases lowered with
      | choice none => rw [placed] at none; cases none
    | none =>
      simp only [LowerM.bind_ok_iff, newSite_ok_iff, LowerM.pure_ok_iff]
      constructor
      · rintro ⟨_, _, ⟨rfl, rfl⟩, out, _, each, rfl, rfl⟩
        exact .choice placed (nested.mp each)
      · intro lowered
        cases lowered with
        | choice _ each =>
          exact ⟨_, _, ⟨rfl, rfl⟩, _, _, nested.mpr each, rfl, rfl⟩
  | .forEach loop body, s, s', out => by
    have nested := @lowerStmts_ok_iff body
    simp only [lowerStmt, LowerM.bind_ok_iff, LowerM.lift_ok_iff, LowerM.pure_ok_iff]
    constructor
    · rintro ⟨loop', _, ⟨head, rfl⟩, inner, _, each, rfl, rfl⟩
      exact .forEach head (nested.mp each)
    · intro lowered
      cases lowered with
      | forEach head each =>
        exact ⟨_, _, ⟨head, rfl⟩, _, _, nested.mpr each, rfl, rfl⟩
  | .code text location, s, s', out => by
    simp only [lowerStmt, LowerM.bind_ok_iff, LowerM.lift_ok_iff, LowerM.pure_ok_iff]
    constructor
    · rintro ⟨text', _, ⟨kept, rfl⟩, rfl, rfl⟩
      exact .code kept
    · intro lowered
      cases lowered with
      | code kept => exact ⟨_, _, ⟨kept, rfl⟩, rfl, rfl⟩
  | .opening marker, s, s', out => by
    simp only [lowerStmt, LowerM.pure_ok_iff]
    constructor
    · rintro ⟨rfl, rfl⟩
      exact .opening
    · intro lowered
      cases lowered with
      | opening => exact ⟨rfl, rfl⟩
  | .closing marker, s, s', out => by
    simp only [lowerStmt, LowerM.pure_ok_iff]
    constructor
    · rintro ⟨rfl, rfl⟩
      exact .closing
    · intro lowered
      cases lowered with
      | closing => exact ⟨rfl, rfl⟩
  | .branch site arms location, s, s', out => by
    have nested := @lowerKnownArms_ok_iff arms
    simp only [lowerStmt, LowerM.bind_ok_iff, knownSite_ok_iff, LowerM.pure_ok_iff]
    constructor
    · rintro ⟨_, _, rfl, out, _, each, rfl, rfl⟩
      exact .branch (nested.mp each)
    · intro lowered
      cases lowered with
      | branch each =>
        exact ⟨(), _, rfl, _, _, nested.mpr each, rfl, rfl⟩
  | .items params keyGenerator body, s, s', out => by
    have nested := @lowerStmts_ok_iff body
    simp only [lowerStmt, LowerM.bind_ok_iff, LowerM.pure_ok_iff]
    constructor
    · rintro ⟨inner, _, each, rfl, rfl⟩
      exact .items (nested.mp each)
    · intro lowered
      cases lowered with
      | items each => exact ⟨_, _, nested.mpr each, rfl, rfl⟩

theorem lowerStmts_ok_iff : ∀ (body : List Stmt) {s s' : LoweringState} {out : List Stmt},
    (ctx.lowerStmts method body).run.run s = (.ok out, s') ↔ LowersAll ctx method body s out s'
  | [], s, s', out => by
    simp only [lowerStmts, LowerM.pure_ok_iff]
    constructor
    · rintro ⟨rfl, rfl⟩
      exact .nil
    · intro lowered
      cases lowered with
      | nil => exact ⟨rfl, rfl⟩
  | stmt :: rest, s, s', out => by
    have first := @lowerStmt_ok_iff stmt
    have others := @lowerStmts_ok_iff rest
    simp only [lowerStmts, LowerM.bind_ok_iff, LowerM.pure_ok_iff]
    constructor
    · rintro ⟨out, _, head, outs, _, tail, rfl, rfl⟩
      exact .cons (first.mp head) (others.mp tail)
    · intro lowered
      cases lowered with
      | cons head tail =>
        exact ⟨_, _, first.mpr head, _, _, others.mpr tail, rfl, rfl⟩

theorem lowerChoiceArms_ok_iff : ∀ (arms : List (Arm Stmt)) {site : UInt32} {location : Location}
    {index : Nat} {s s' : LoweringState} {out : List (BranchArm Stmt)},
    (ctx.lowerChoiceArms method site location index arms).run.run s = (.ok out, s') ↔
      LowersArms ctx method site location index arms s out s'
  | [], site, location, index, s, s', out => by
    simp only [lowerChoiceArms, LowerM.pure_ok_iff]
    constructor
    · rintro ⟨rfl, rfl⟩
      exact .nil
    · intro lowered
      cases lowered with
      | nil => exact ⟨rfl, rfl⟩
  | ⟨condition, body⟩ :: rest, site, location, index, s, s', out => by
    have nested := @lowerStmts_ok_iff body
    have others := @lowerChoiceArms_ok_iff rest
    simp only [lowerChoiceArms, LowerM.bind_ok_iff, branchOf_ok_iff, condition_ok_iff,
      LowerM.pure_ok_iff]
    constructor
    · rintro ⟨_, _, ⟨rfl, rfl⟩, condition', _, ⟨kept, rfl⟩, inner, _, head, outs, _, tail, rfl, rfl⟩
      exact .cons kept (nested.mp head) (others.mp tail)
    · intro lowered
      cases lowered with
      | cons kept head tail =>
        exact ⟨_, _, ⟨rfl, rfl⟩, _, _, ⟨kept, rfl⟩, _, _, nested.mpr head, _, _,
          others.mpr tail, rfl, rfl⟩

theorem lowerKnownArms_ok_iff : ∀ (arms : List (BranchArm Stmt)) {s s' : LoweringState}
    {out : List (BranchArm Stmt)},
    (ctx.lowerKnownArms method arms).run.run s = (.ok out, s') ↔ LowersKnown ctx method arms s out s'
  | [], s, s', out => by
    simp only [lowerKnownArms, LowerM.pure_ok_iff]
    constructor
    · rintro ⟨rfl, rfl⟩
      exact .nil
    · intro lowered
      cases lowered with
      | nil => exact ⟨rfl, rfl⟩
  | ⟨condition, branchId, body⟩ :: rest, s, s', out => by
    have nested := @lowerStmts_ok_iff body
    have others := @lowerKnownArms_ok_iff rest
    simp only [lowerKnownArms, LowerM.bind_ok_iff, LowerM.pure_ok_iff]
    constructor
    · rintro ⟨inner, _, head, outs, _, tail, rfl, rfl⟩
      exact .cons (nested.mp head) (others.mp tail)
    · intro lowered
      cases lowered with
      | cons head tail =>
        exact ⟨_, _, nested.mpr head, _, _, others.mpr tail, rfl, rfl⟩

end

/-- A body is lowered exactly when the rules apply to it. -/
theorem lower_ok_iff {body out : List Stmt} :
    (ctx.lower method body).run.run s = (.ok out, s') ↔ LowersAll ctx method body s out s' := by
  rw [lower_eq_lowerStmts]
  exact lowerStmts_ok_iff body

end BodyContext

end ReactiveView
