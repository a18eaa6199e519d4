import Mathlib.Data.List.Forall2
import ReactiveView.Proofs.BranchNumbers
import ReactiveView.Proofs.ModuleLowering

/-!
# Sites of conditionals

The conditionals of a component are numbered in the order of the source, each before those in its
arms, the render body before the builders.  The registry has one entry for each of them, and the
branch blocks of the lowered bodies are the conditionals in the same order.  The state of lowering is
at every point known from the conditionals before it (`LoweringState.registered`).
-/

namespace ReactiveView

open List

/-- A conditional as it is written: the method that it lies in, its arms and its position. -/
structure Conditional where
  method : String
  arms : List (Arm Stmt)
  location : Location

/-- What a registry says of a conditional with the number `site`. -/
def Conditional.entry (site : Nat) (c : Conditional) : BranchSite where
  site := .ofNat site
  method := c.method
  branchIds := (List.range c.arms.length).map UInt32.ofNat
  location := c.location

/-- The arms of a lowered conditional with the statements right before and after them. -/
structure BranchBlock where
  before : Option Stmt
  site : UInt32
  arms : List (BranchArm Stmt)
  location : Location
  after : Option Stmt

namespace Stmt

mutual

/-- The conditionals of a source statement, each before those in its arms. -/
def choices (method : String) : Stmt → List Conditional
  | .element _ children => choicesAll method children
  | .choice arms location => ⟨method, arms, location⟩ :: choicesArms method arms
  | .forEach _ body => choicesAll method body
  | .code _ _ | .opening _ | .closing _ | .branch _ _ _ | .items _ _ _ => []

/-- The conditionals of source statements. -/
def choicesAll (method : String) : List Stmt → List Conditional
  | [] => []
  | s :: rest => s.choices method ++ choicesAll method rest

/-- The conditionals in the arms of a conditional. -/
def choicesArms (method : String) : List (Arm Stmt) → List Conditional
  | [] => []
  | ⟨_, body⟩ :: rest => choicesAll method body ++ choicesArms method rest

end

mutual

/-- The branch blocks of a lowered statement, each before those in its arms. -/
def blocks (before after : Option Stmt) : Stmt → List BranchBlock
  | .branch site arms location => ⟨before, site, arms, location, after⟩ :: blocksBranches arms
  | .items _ _ body => blocksAll none none body
  | .element _ _ | .choice _ _ | .forEach _ _ | .code _ _ | .opening _ | .closing _ => []

/-- The branch blocks of lowered statements that stand between two others. -/
def blocksAll (before after : Option Stmt) : List Stmt → List BranchBlock
  | [] => []
  | s :: rest => s.blocks before (rest.head?.or after) ++ blocksAll (some s) after rest

/-- The branch blocks in the arms of a lowered conditional. -/
def blocksBranches : List (BranchArm Stmt) → List BranchBlock
  | [] => []
  | ⟨_, _, body⟩ :: rest => blocksAll none none body ++ blocksBranches rest

end

theorem blocksAll_append (before after : Option Stmt) (first second : List Stmt) :
    blocksAll before after (first ++ second) =
      blocksAll before (second.head?.or after) first ++
        blocksAll (first.getLast?.or before) after second := by
  induction first generalizing before with
  | nil => simp [blocksAll]
  | cons s first ih =>
    have last : ((s :: first).getLast?).or before = first.getLast?.or (some s) := by
      rw [List.getLast?_cons]
      cases first.getLast? <;> rfl
    rw [cons_append, blocksAll, blocksAll, ih, List.head?_append, Option.or_assoc, last,
      append_assoc]

end Stmt

/-- The conditionals of a member; only builders have any. -/
def Member.choices : Member → List Conditional
  | .method m => if m.isBuilder then Stmt.choicesAll m.name m.body else []
  | _ => []

/-- The branch blocks of a lowered member. -/
def Member.blocks : Member → List BranchBlock
  | .method m => if m.isBuilder then Stmt.blocksAll none none m.body else []
  | _ => []

/-- The conditionals of a component, first those of its render body and then those of its members,
    with the names of methods after lowering. -/
def ModuleScope.choices (scope : ModuleScope) (c : Component) : List Conditional :=
  Stmt.choicesAll (scope.renderName c) c.render.body ++ c.members.flatMap Member.choices

/-- The branch blocks of a lowered component. -/
def Component.blocks (c : Component) : List BranchBlock :=
  Stmt.blocksAll none none c.render.body ++ c.members.flatMap Member.blocks

/-- Whether the bodies of a component are written in source forms only. -/
def Component.hasSourceBodies (c : Component) : Bool :=
  Stmt.areSource c.render.body && c.methods.all fun m => Stmt.areSource m.body

/-! ## The state of lowering -/

namespace LoweringState

/-- The state after the given conditionals. -/
def registered (done : List Conditional) : LoweringState :=
  ⟨⟨done.mapIdx Conditional.entry⟩, .ofNat done.length⟩

theorem counted_registered (done : List Conditional) : (registered done).registry.Counted := by
  intro entry member
  obtain ⟨k, bound, rfl⟩ := mem_mapIdx.mp member
  exact ⟨_, rfl⟩

theorem registered_afterNew {done : List Conditional} (few : done.length < 2 ^ 32)
    (c : Conditional) :
    (registered done).afterNew c.method c.arms.length c.location = registered (done ++ [c]) := by
  have unknown : (registered done).registry.get? (.ofNat done.length) = none := by
    refine List.find?_eq_none.mpr fun entry member => ?_
    obtain ⟨k, bound, rfl⟩ := mem_mapIdx.mp member
    rw [decide_eq_true_iff]
    intro same
    have same := congrArg UInt32.toNat same
    simp only [Conditional.entry, UInt32.toNat_ofNat', Nat.mod_eq_of_lt few,
      Nat.mod_eq_of_lt (Nat.lt_trans bound few)] at same
    omega
  simp only [afterNew, BranchRegistry.register]
  rw [if_neg (by simp [show (registered done).nextSite = .ofNat done.length from rfl, unknown])]
  simp [registered, mapIdx_append, Conditional.entry, UInt32.ofNat_add]

end LoweringState

/-! ## Lowered conditionals -/

namespace BodyContext

/-- What an arm, given with its position, becomes in the conditional with the number `site`.  `all`
    are the conditionals of the component. -/
structure LowersArm (ctx : BodyContext) (all : List Conditional) (site : Nat) (c : Conditional)
    (arm : Arm Stmt × Nat) (out : BranchArm Stmt) : Prop where
  branchId : out.branchId = .ofNat arm.2
  condition : arm.1.condition.mapM (ctx.expression c.location) = .ok out.condition
  body : ∃ done inner, done ++ Stmt.choicesAll c.method arm.1.body <+: all ∧
    (ctx.lower c.method arm.1.body).run.run (.registered done) =
      (.ok inner, .registered (done ++ Stmt.choicesAll c.method arm.1.body)) ∧
    out.body = armBody (.ofNat site) (.ofNat arm.2) c.location inner

/-- What a conditional, given with its number, becomes. -/
structure LowersChoice (ctx : BodyContext) (all : List Conditional) (c : Conditional × Nat)
    (block : BranchBlock) : Prop where
  site : block.site = .ofNat c.2
  location : block.location = c.1.location
  before : block.before = some (.opening
    ⟨Builtin.conditional, [], [], .conditional (.ofNat c.2), c.1.location⟩)
  after : block.after = some (.closing ⟨Builtin.conditional, none⟩)
  arms : List.Forall₂ (ctx.LowersArm all c.2 c.1) c.1.arms.zipIdx block.arms

/-- Branch blocks are conditionals in the same order, the first of them with the number `first`. -/
abbrev LowersChoices (ctx : BodyContext) (all : List Conditional) (first : Nat)
    (conditionals : List Conditional) (blocks : List BranchBlock) : Prop :=
  List.Forall₂ (ctx.LowersChoice all) (conditionals.zipIdx first) blocks

variable {ctx : BodyContext} {method : String} {all : List Conditional}

theorem LowersChoices.append {first : Nat} {some others : List Conditional}
    {blocks blocks' : List BranchBlock} (head : ctx.LowersChoices all first some blocks)
    (tail : ctx.LowersChoices all (first + some.length) others blocks') :
    ctx.LowersChoices all first (some ++ others) (blocks ++ blocks') := by
  rw [LowersChoices, zipIdx_append, Nat.add_comm]
  exact rel_append head (by rwa [Nat.add_comm])

-- The invariant is that the state is the one after the conditionals before: it gives the number of
-- the next conditional, and shows that this number is not taken.
mutual

theorem Lowers.sited {stmt : Stmt} {out : List Stmt} {s s' : LoweringState}
    {done : List Conditional} :
    Lowers ctx method stmt s out s' → s = .registered done → stmt.isSource = true →
    all.length < 2 ^ 32 → done ++ stmt.choices method <+: all →
    s' = .registered (done ++ stmt.choices method) ∧ ∀ before after,
      ctx.LowersChoices all done.length (stmt.choices method) (Stmt.blocksAll before after out)
  | .element opened body, start, source, few, within => by
    rw [Stmt.choices] at within ⊢
    obtain ⟨last, each⟩ := body.sited start source few within
    refine ⟨last, fun before after => ?_⟩
    simp only [cons_append, Stmt.blocksAll, Stmt.blocks, Stmt.blocksAll_append,
      nil_append, append_nil]
    exact each _ _
  | .choice placed each, start, source, few, within => by
    subst start
    rw [Stmt.choices, append_cons] at within
    -- the conditional is one of all, so its number fits into a word
    have bound : done.length < 2 ^ 32 := by
      have length := within.length_le
      simp only [length_append] at length
      omega
    obtain ⟨last, inner, arms⟩ :=
      each.sited (LoweringState.registered_afterNew bound ⟨method, _, _⟩) source few within
    refine ⟨by rw [last, Stmt.choices, ← append_cons], fun before after => ?_⟩
    simp only [conditional, Stmt.blocksAll, Stmt.blocks, Stmt.choices, LowersChoices,
      zipIdx_cons, nil_append, append_nil, List.head?_cons, Option.some_or]
    refine .cons ⟨rfl, rfl, rfl, rfl, arms _ _ rfl rfl rfl⟩ ?_
    simpa using inner
  | .forEach head body, start, source, few, within => by
    rw [Stmt.choices] at within ⊢
    obtain ⟨last, each⟩ := body.sited start source few within
    refine ⟨last, fun before after => ?_⟩
    simp only [loopBody, Stmt.blocksAll, Stmt.blocks, nil_append, append_nil]
    exact each none none
  | .code _, start, _, _, _ => by
    subst start
    exact ⟨by simp [Stmt.choices], fun _ _ => .nil⟩

theorem LowersAll.sited {body out : List Stmt} {s s' : LoweringState} {done : List Conditional} :
    LowersAll ctx method body s out s' → s = .registered done → Stmt.areSource body = true →
    all.length < 2 ^ 32 → done ++ Stmt.choicesAll method body <+: all →
    s' = .registered (done ++ Stmt.choicesAll method body) ∧ ∀ before after,
      ctx.LowersChoices all done.length (Stmt.choicesAll method body)
        (Stmt.blocksAll before after out)
  | .nil, start, _, _, _ => by
    subst start
    exact ⟨by simp [Stmt.choicesAll], fun _ _ => .nil⟩
  | .cons head tail, start, source, few, within => by
    rw [Stmt.areSource, Bool.and_eq_true] at source
    rw [Stmt.choicesAll, ← append_assoc] at within
    obtain ⟨middle, first⟩ :=
      head.sited start source.1 few ((prefix_append _ _).trans within)
    obtain ⟨last, others⟩ := tail.sited middle source.2 few within
    refine ⟨by rw [last, Stmt.choicesAll, append_assoc], fun before after => ?_⟩
    rw [Stmt.blocksAll_append, Stmt.choicesAll]
    exact (first _ _).append (by simpa using others _ _)

theorem LowersArms.sited {site : UInt32} {location : Location} {index : Nat}
    {arms : List (Arm Stmt)} {out : List (BranchArm Stmt)} {s s' : LoweringState}
    {done : List Conditional} :
    LowersArms ctx method site location index arms s out s' → s = .registered done →
    Stmt.areSourceArms arms = true → all.length < 2 ^ 32 →
    done ++ Stmt.choicesArms method arms <+: all →
    s' = .registered (done ++ Stmt.choicesArms method arms) ∧
      ctx.LowersChoices all done.length (Stmt.choicesArms method arms) (Stmt.blocksBranches out) ∧
      ∀ (c : Conditional) (k : Nat), c.method = method → c.location = location → site = .ofNat k →
        List.Forall₂ (ctx.LowersArm all k c) (arms.zipIdx index) out
  | .nil, start, _, _, _ => by
    subst start
    exact ⟨by simp [Stmt.choicesArms], .nil, fun _ _ _ _ _ => .nil⟩
  | .cons kept head tail, start, source, few, within => by
    rw [Stmt.areSourceArms, Bool.and_eq_true] at source
    rw [Stmt.choicesArms, ← append_assoc] at within
    have here := (prefix_append _ _).trans within
    obtain ⟨middle, first⟩ := head.sited start source.1 few here
    obtain ⟨last, others, arms⟩ := tail.sited middle source.2 few within
    refine ⟨by rw [last, Stmt.choicesArms, append_assoc], ?_, ?_⟩
    · simp only [armBody, Stmt.blocksBranches, Stmt.choicesArms, cons_append, Stmt.blocksAll,
        Stmt.blocks, Stmt.blocksAll_append, nil_append, append_nil]
      exact (first _ _).append (by simpa using others)
    · rintro c k rfl rfl rfl
      subst start
      rw [branch_of_counted (LoweringState.counted_registered done)]
      rw [middle] at head
      exact .cons ⟨rfl, kept, done, _, here, lower_ok_iff.mpr head, rfl⟩ (arms c k rfl rfl rfl)

end

end BodyContext

/-! ## Components -/

theorem Member.choices_lower (m : Member) : m.lower.flatMap Member.choices = m.choices := by
  cases m with
  | field f => by_cases plain : f.decorator = .none <;> simp [Member.lower, plain, Member.choices]
  | wrapper _ | accessors _ | method _ => simp [Member.lower]

theorem Component.choices_loweredMembers (c : Component) :
    c.loweredMembers.flatMap Member.choices = c.members.flatMap Member.choices := by
  simp only [loweredMembers, flatMap_assoc, Member.choices_lower]

namespace ModuleScope

open LoweringState (registered)

variable {scope : ModuleScope} {c : Component} {all : List Conditional}

theorem LowersMember.sited {m out : Member} {s s' : LoweringState} {done : List Conditional}
    (lowers : scope.LowersMember c m s out s') (start : s = registered done)
    (source : ∀ method, m = .method method → Stmt.areSource method.body = true)
    (few : all.length < 2 ^ 32) (within : done ++ m.choices <+: all) :
    s' = registered (done ++ m.choices) ∧
      (scope.bodyOf c).LowersChoices all done.length m.choices out.blocks := by
  cases lowers with
  | builder isBuilder body =>
    simp only [Member.choices, Member.blocks, if_pos isBuilder] at within ⊢
    obtain ⟨last, each⟩ := body.lowers.sited start (source _ rfl) few within
    exact ⟨last, each none none⟩
  | ordinary isOrdinary body =>
    simp only [Member.choices, Member.blocks, isOrdinary, Bool.false_eq_true, if_false,
      append_nil]
    exact ⟨start, .nil⟩
  | field | wrapper | accessors =>
    rw [Member.choices, append_nil]
    · exact ⟨start, .nil⟩
    · nofun

theorem LowersMembers.sited {members out : List Member} {s s' : LoweringState}
    {done : List Conditional} (lowers : scope.LowersMembers c members s out s')
    (start : s = registered done)
    (source : ∀ method, .method method ∈ members → Stmt.areSource method.body = true)
    (few : all.length < 2 ^ 32) (within : done ++ members.flatMap Member.choices <+: all) :
    s' = registered (done ++ members.flatMap Member.choices) ∧
      (scope.bodyOf c).LowersChoices all done.length (members.flatMap Member.choices)
        (out.flatMap Member.blocks) := by
  induction lowers generalizing done with
  | nil =>
    rw [flatMap_nil, append_nil]
    exact ⟨start, .nil⟩
  | cons head tail ih =>
    rw [flatMap_cons, ← append_assoc] at within
    obtain ⟨middle, first⟩ := head.sited start (fun method same => source method (by simp [same]))
      few ((prefix_append _ _).trans within)
    obtain ⟨last, others⟩ := ih middle (fun method member => source method (.tail _ member)) within
    rw [flatMap_cons, flatMap_cons]
    exact ⟨by rw [last, append_assoc], first.append (by simpa using others)⟩

/-- The conditionals of a component are registered in the order of the source, and the branch blocks
    of its lowered bodies are these conditionals in the same order. -/
theorem sites_by_position {out : LoweredComponent} (lowered : scope.lowerComponent c = .ok out)
    (source : c.hasSourceBodies = true) (few : (scope.choices c).length < 2 ^ 32) :
    out.branchRegistry.sites = (scope.choices c).mapIdx Conditional.entry ∧
      List.Forall₂ ((scope.bodyOf c).LowersChoice (scope.choices c)) (scope.choices c).zipIdx
        out.decl.blocks := by
  obtain ⟨_, _, body, members, middle, last, render, methods, rfl⟩ :=
    lowerComponent_ok_iff.mp lowered
  rw [Component.hasSourceBodies, Bool.and_eq_true, all_eq_true] at source
  have start : ({} : LoweringState) = registered [] := rfl
  obtain ⟨next, first⟩ := render.lowers.sited start source.1 few (prefix_append _ _)
  have whole : Stmt.choicesAll (scope.renderName c) c.render.body ++
      c.loweredMembers.flatMap Member.choices = scope.choices c := by
    rw [c.choices_loweredMembers, choices]
  obtain ⟨final, others⟩ := methods.sited next
    (fun method member => source.2 method (Component.mem_methods_of_mem_loweredMembers member))
    few (whole ▸ prefix_rfl)
  rw [c.choices_loweredMembers] at final others
  refine ⟨by rw [final]; rfl, ?_⟩
  exact (first none none).append (by simpa using others)

end ModuleScope

/-! A panel with a conditional in an arm of another, and one more in a builder. -/

def nestedPanel : Component where
  name := "Panel"
  members := [.method ⟨"row", [], true, [.choice [⟨some "this.wide", []⟩] ⟨9, 4⟩], {}⟩]
  render := { body := [.element { name := "Column" } [
    .choice [⟨some "this.shown", [.choice [⟨some "this.wide", []⟩] ⟨3, 6⟩]⟩, ⟨none, []⟩] ⟨2, 4⟩]] }

theorem ModuleScope.sites_by_position_nestedPanel :
    ∃ out, (ModuleScope.of ⟨"", [nestedPanel]⟩ {}).lowerComponent nestedPanel = .ok out ∧
      out.branchRegistry.sites =
        [⟨0, "initialRender", [0, 1], ⟨2, 4⟩⟩, ⟨1, "initialRender", [0], ⟨3, 6⟩⟩,
          ⟨2, "row", [0], ⟨9, 4⟩⟩] ∧
      out.decl.blocks.map (·.site) = [0, 1, 2] := by
  have known : ((ModuleScope.of ⟨"", [nestedPanel]⟩ {}).lowerComponent nestedPanel).toOption.map
      (fun out => out.decl.blocks.map (·.site)) = some [0, 1, 2] := by decide +kernel
  cases lowered : (ModuleScope.of ⟨"", [nestedPanel]⟩ {}).lowerComponent nestedPanel with
  | error d =>
    rw [lowered] at known
    cases known
  | ok out =>
    rw [lowered] at known
    obtain ⟨registry, _⟩ := ModuleScope.sites_by_position lowered rfl (by decide)
    exact ⟨out, rfl, registry, Option.some.inj known⟩

end ReactiveView
