import ReactiveView.Proofs.BranchSites

/-!
# Sites of conditionals that are lowered already

A component may be lowered in parts: some conditionals have a site, others are still as written.
Those that have a site keep it.  A written one gets the next number above all sites that were met
before it, so it can only meet its own number again at a conditional with a site further on.  Where
that happens two conditionals share one site, and the registry knows only the first of them.
-/

namespace ReactiveView

open List

/-- A conditional in either form, with the site that it has already. -/
structure Switch where
  site? : Option UInt32
  method : String
  arms : Nat
  location : Location
deriving DecidableEq

/-- What a registry says of a conditional with its site. -/
def Switch.entry (sited : Switch × UInt32) : BranchSite where
  site := sited.2
  method := sited.1.method
  branchIds := (List.range sited.1.arms).map UInt32.ofNat
  location := sited.1.location

namespace Stmt

mutual

/-- The conditionals of a statement, each before those in its arms. -/
def switches (method : String) : Stmt → List Switch
  | .element _ children => switchesAll method children
  | .choice arms location => ⟨none, method, arms.length, location⟩ :: switchesArms method arms
  | .forEach _ body => switchesAll method body
  | .branch site arms location =>
    ⟨some site, method, arms.length, location⟩ :: switchesBranches method arms
  | .items _ _ body => switchesAll method body
  | .code _ _ | .opening _ | .closing _ => []

def switchesAll (method : String) : List Stmt → List Switch
  | [] => []
  | s :: rest => s.switches method ++ switchesAll method rest

def switchesArms (method : String) : List (Arm Stmt) → List Switch
  | [] => []
  | ⟨_, body⟩ :: rest => switchesAll method body ++ switchesArms method rest

def switchesBranches (method : String) : List (BranchArm Stmt) → List Switch
  | [] => []
  | ⟨_, _, body⟩ :: rest => switchesAll method body ++ switchesBranches method rest

end

end Stmt

/-- The conditionals of a member; only builders have any. -/
def Member.switches : Member → List Switch
  | .method m => if m.isBuilder then Stmt.switchesAll m.name m.body else []
  | _ => []

/-- The conditionals of a component in the order in which they are lowered. -/
def ModuleScope.switches (scope : ModuleScope) (c : Component) : List Switch :=
  Stmt.switchesAll (scope.renderName c) c.render.body ++ c.members.flatMap Member.switches

/-! ## The numbers that are given -/

namespace LoweringState

/-- The site of a conditional that is met now. -/
def siteOf (s : LoweringState) (switch : Switch) : UInt32 := switch.site?.getD s.nextSite

def afterSwitch (s : LoweringState) (switch : Switch) : LoweringState :=
  match switch.site? with
  | none => s.afterNew switch.method switch.arms switch.location
  | some site => s.afterKnown switch.method site switch.arms switch.location

def afterSwitches (s : LoweringState) (switches : List Switch) : LoweringState :=
  switches.foldl afterSwitch s

/-- Conditionals that are met one after the other, with their sites. -/
def sited (s : LoweringState) : List Switch → List (Switch × UInt32)
  | [] => []
  | switch :: rest => (switch, s.siteOf switch) :: (s.afterSwitch switch).sited rest

variable {s : LoweringState} {switch : Switch} {switches : List Switch}

theorem sited_append (s : LoweringState) (first second : List Switch) :
    s.sited (first ++ second) = s.sited first ++ (s.afterSwitches first).sited second := by
  induction first generalizing s with
  | nil => rfl
  | cons switch first ih => simp [sited, ih, afterSwitches]

theorem afterSwitches_append (s : LoweringState) (first second : List Switch) :
    s.afterSwitches (first ++ second) = (s.afterSwitches first).afterSwitches second :=
  foldl_append

theorem map_sited (s : LoweringState) (switches : List Switch) :
    (s.sited switches).map (·.1) = switches := by
  induction switches generalizing s with
  | nil => rfl
  | cons switch switches ih => simp [sited, ih]

theorem siteOf_of_mem_sited {sited : Switch × UInt32} (member : sited ∈ s.sited switches)
    {site : UInt32} (known : sited.1.site? = some site) : sited.2 = site := by
  induction switches generalizing s with
  | nil => cases member
  | cons switch switches ih =>
    rcases mem_cons.mp member with rfl | later
    · simp only [siteOf] at known ⊢
      rw [known, Option.getD_some]
    · exact ih later

theorem registry_afterSwitch (s : LoweringState) (switch : Switch) :
    (s.afterSwitch switch).registry =
      s.registry.register (s.siteOf switch) switch.method switch.arms switch.location := by
  unfold afterSwitch siteOf
  cases switch.site? <;> rfl

/-- The next number is above the site of the conditional and not below the number before. -/
theorem nextSite_afterSwitch (bound : (s.siteOf switch).toNat + 1 < 2 ^ 32) :
    s.siteOf switch < (s.afterSwitch switch).nextSite ∧
      s.nextSite ≤ (s.afterSwitch switch).nextSite := by
  have above : s.siteOf switch < s.siteOf switch + 1 := by
    rw [UInt32.lt_iff_toNat_lt, UInt32.toNat_add, UInt32.toNat_one, Nat.mod_eq_of_lt bound]
    exact Nat.lt_succ_self _
  cases known : switch.site? with
  | none =>
    simp only [siteOf, afterSwitch, afterNew, known, Option.getD_none] at above ⊢
    exact ⟨above, UInt32.le_of_lt above⟩
  | some site =>
    simp only [siteOf, afterSwitch, afterKnown, known, Option.getD_some] at above ⊢
    change site < (if s.nextSite ≤ site + 1 then site + 1 else s.nextSite) ∧
      s.nextSite ≤ (if s.nextSite ≤ site + 1 then site + 1 else s.nextSite)
    split
    next less => exact ⟨above, less⟩
    next more => exact ⟨UInt32.lt_trans above (UInt32.not_le.mp more), UInt32.le_refl _⟩

theorem le_of_mem_sited (bounded : ∀ sited ∈ s.sited switches, sited.2.toNat + 1 < 2 ^ 32)
    {sited : Switch × UInt32} (member : sited ∈ s.sited switches) (unsited : sited.1.site? = none) :
    s.nextSite ≤ sited.2 := by
  induction switches generalizing s with
  | nil => cases member
  | cons switch switches ih =>
    rw [LoweringState.sited, forall_mem_cons] at bounded
    rcases mem_cons.mp member with rfl | later
    · rw [siteOf, unsited]
      exact UInt32.le_refl _
    · exact UInt32.le_trans (nextSite_afterSwitch bounded.1).2 (ih bounded.2 later)

/-- A number that is given is above all sites before it. -/
theorem pairwise_sited (bounded : ∀ sited ∈ s.sited switches, sited.2.toNat + 1 < 2 ^ 32) :
    (s.sited switches).Pairwise fun before after => after.1.site? = none → before.2 < after.2 := by
  induction switches generalizing s with
  | nil => exact .nil
  | cons switch switches ih =>
    rw [sited, forall_mem_cons] at bounded
    refine .cons (fun after member unsited => ?_) (ih bounded.2)
    exact UInt32.lt_of_lt_of_le (nextSite_afterSwitch bounded.1).1
      (le_of_mem_sited bounded.2 member unsited)

/-- Sites are distinct as soon as no given number is met again at a conditional that has a site. -/
theorem nodup_sited_iff (bounded : ∀ sited ∈ s.sited switches, sited.2.toNat + 1 < 2 ^ 32)
    (distinct : (switches.filterMap (·.site?)).Nodup) :
    ((s.sited switches).map (·.2)).Nodup ↔ (s.sited switches).Pairwise fun before after =>
      before.1.site? = none → after.1.site? ≠ none → before.2 ≠ after.2 := by
  rw [List.Nodup, pairwise_map]
  constructor
  · exact List.Pairwise.imp fun differs _ _ => differs
  · intro unmet
    -- two conditionals that have a site have different ones
    have kept : (s.sited switches).Pairwise fun before after =>
        before.1.site? ≠ none → after.1.site? ≠ none → before.2 ≠ after.2 := by
      rw [← map_sited s switches, filterMap_map, List.Nodup, pairwise_filterMap] at distinct
      refine List.Pairwise.imp_of_mem ?_ distinct
      intro before after isBefore isAfter differs sited sited'
      obtain ⟨site, known⟩ := Option.ne_none_iff_exists'.mp sited
      obtain ⟨site', known'⟩ := Option.ne_none_iff_exists'.mp sited'
      rw [siteOf_of_mem_sited isBefore known, siteOf_of_mem_sited isAfter known']
      exact differs site known site' known'
    refine ((pairwise_sited bounded).and (unmet.and kept)).imp ?_
    rintro before after ⟨above, unmet, kept⟩
    by_cases later : after.1.site? = none
    · exact UInt32.ne_of_lt (above later)
    · by_cases earlier : before.1.site? = none
      · exact unmet earlier later
      · exact kept earlier later

end LoweringState

namespace BranchRegistry

theorem get?_register (r : BranchRegistry) (site : UInt32) (method : String) (arms : Nat)
    (location : Location) (site' : UInt32) :
    (r.register site method arms location).get? site' = (r.get? site').or
      (if site = site' then
        some ⟨site, method, (List.range arms).map UInt32.ofNat, location⟩ else none) := by
  unfold register
  split
  next known =>
    split
    next same =>
      subst same
      obtain ⟨entry, known⟩ := Option.isSome_iff_exists.mp known
      rw [known, Option.some_or]
    · rw [Option.or_none]
  next unknown =>
    simp only [get?, List.find?_append, List.find?_cons, List.find?_nil]
    by_cases same : site = site' <;> simp [same]

end BranchRegistry

namespace LoweringState

variable {s : LoweringState} {switches : List Switch}

/-- A site is registered as the first conditional that has it. -/
theorem get?_afterSwitches (s : LoweringState) (switches : List Switch) (site : UInt32) :
    (s.afterSwitches switches).registry.get? site = (s.registry.get? site).or
      (((s.sited switches).find? (·.2 = site)).map Switch.entry) := by
  induction switches generalizing s with
  | nil => simp [afterSwitches, sited]
  | cons switch switches ih =>
    have step := ih (s.afterSwitch switch)
    rw [registry_afterSwitch, BranchRegistry.get?_register, Option.or_assoc] at step
    rw [afterSwitches, foldl_cons]
    rw [afterSwitches] at step
    rw [step, sited, List.find?_cons]
    by_cases same : s.siteOf switch = site <;> simp [same, Switch.entry]

theorem sites_afterSwitches
    (distinct : (s.registry.sites.map (·.site) ++ (s.sited switches).map (·.2)).Nodup) :
    (s.afterSwitches switches).registry.sites =
      s.registry.sites ++ (s.sited switches).map Switch.entry := by
  induction switches generalizing s with
  | nil => simp [afterSwitches, sited]
  | cons switch switches ih =>
    have unknown : s.registry.get? (s.siteOf switch) = none := by
      refine List.find?_eq_none.mpr fun entry member => ?_
      rw [nodup_append'] at distinct
      have apart := distinct.2.2 (mem_map_of_mem member)
      simp only [sited, map_cons, mem_cons] at apart
      simpa using fun same => apart (.inl same)
    have registered : (s.afterSwitch switch).registry.sites =
        s.registry.sites ++ [Switch.entry (switch, s.siteOf switch)] := by
      rw [registry_afterSwitch, BranchRegistry.register, if_neg (by simp [unknown])]
      rfl
    have step := ih (s := s.afterSwitch switch) (by
      rw [registered, map_append, append_assoc]
      simpa [sited, Switch.entry] using distinct)
    rw [afterSwitches] at step ⊢
    rw [foldl_cons, step, registered, sited, append_assoc]
    rfl

end LoweringState

/-! ## Lowered bodies -/

/-- The site, the number of arms and the position of a block. -/
def BranchBlock.outline (block : BranchBlock) : UInt32 × Nat × Location :=
  (block.site, block.arms.length, block.location)

/-- The same of a conditional with its site. -/
def Switch.outline (sited : Switch × UInt32) : UInt32 × Nat × Location :=
  (sited.2, sited.1.arms, sited.1.location)

namespace BodyContext

variable {ctx : BodyContext} {method : String}

mutual

theorem Lowers.switches {stmt : Stmt} {out : List Stmt} {s s' : LoweringState} :
    Lowers ctx method stmt s out s' →
    s' = s.afterSwitches (stmt.switches method) ∧ ∀ before after,
      (Stmt.blocksAll before after out).map BranchBlock.outline =
        (s.sited (stmt.switches method)).map Switch.outline
  | .element _ body => by
    obtain ⟨last, each⟩ := body.switches
    refine ⟨last, fun before after => ?_⟩
    simp only [cons_append, Stmt.blocksAll, Stmt.blocks, Stmt.blocksAll_append,
      nil_append, append_nil, Stmt.switches]
    exact each _ _
  | .choice _ each => by
    obtain ⟨last, inner, length⟩ := each.switches
    refine ⟨last, fun before after => ?_⟩
    simp only [conditional, Stmt.blocksAll, Stmt.blocks, nil_append, append_nil,
      map_cons, Stmt.switches, LoweringState.sited]
    rw [inner, BranchBlock.outline, length]
    rfl
  -- the blocks of a loop have no neighbours outside of it
  | .forEach _ body => by
    obtain ⟨last, each⟩ := body.switches
    refine ⟨last, fun before after => ?_⟩
    simp only [loopBody, Stmt.blocksAll, Stmt.blocks, nil_append, append_nil,
      Stmt.switches]
    exact each none none
  | .code _ | .opening | .closing => ⟨rfl, fun _ _ => rfl⟩
  | .branch each => by
    obtain ⟨last, inner, length⟩ := each.switches
    refine ⟨last, fun before after => ?_⟩
    simp only [Stmt.blocksAll, Stmt.blocks, append_nil, map_cons, Stmt.switches,
      LoweringState.sited]
    rw [inner, BranchBlock.outline, length]
    rfl
  | .items body => by
    obtain ⟨last, each⟩ := body.switches
    refine ⟨last, fun before after => ?_⟩
    simp only [Stmt.blocksAll, Stmt.blocks, append_nil, Stmt.switches]
    exact each none none

theorem LowersAll.switches {body out : List Stmt} {s s' : LoweringState} :
    LowersAll ctx method body s out s' →
    s' = s.afterSwitches (Stmt.switchesAll method body) ∧ ∀ before after,
      (Stmt.blocksAll before after out).map BranchBlock.outline =
        (s.sited (Stmt.switchesAll method body)).map Switch.outline
  | .nil => ⟨rfl, fun _ _ => rfl⟩
  | .cons head tail => by
    obtain ⟨middle, first⟩ := head.switches
    obtain ⟨last, others⟩ := tail.switches
    subst middle
    refine ⟨by rw [last, Stmt.switchesAll, LoweringState.afterSwitches_append], fun _ _ => ?_⟩
    rw [Stmt.blocksAll_append, map_append, first, others, Stmt.switchesAll,
      LoweringState.sited_append, map_append]

theorem LowersArms.switches {site : UInt32} {location : Location} {index : Nat}
    {arms : List (Arm Stmt)} {out : List (BranchArm Stmt)} {s s' : LoweringState} :
    LowersArms ctx method site location index arms s out s' →
    s' = s.afterSwitches (Stmt.switchesArms method arms) ∧
      (Stmt.blocksBranches out).map BranchBlock.outline =
        (s.sited (Stmt.switchesArms method arms)).map Switch.outline ∧
      out.length = arms.length
  | .nil => ⟨rfl, rfl, rfl⟩
  | .cons _ head tail => by
    obtain ⟨middle, first⟩ := head.switches
    obtain ⟨last, others, length⟩ := tail.switches
    subst middle
    refine ⟨by rw [last, Stmt.switchesArms, LoweringState.afterSwitches_append], ?_, by simp [length]⟩
    simp only [armBody, Stmt.blocksBranches, cons_append, Stmt.blocksAll, Stmt.blocks,
      Stmt.blocksAll_append, nil_append, append_nil, map_append, first, others,
      Stmt.switchesArms, LoweringState.sited_append]

theorem LowersKnown.switches {arms out : List (BranchArm Stmt)} {s s' : LoweringState} :
    LowersKnown ctx method arms s out s' →
    s' = s.afterSwitches (Stmt.switchesBranches method arms) ∧
      (Stmt.blocksBranches out).map BranchBlock.outline =
        (s.sited (Stmt.switchesBranches method arms)).map Switch.outline ∧
      out.length = arms.length
  | .nil => ⟨rfl, rfl, rfl⟩
  | .cons head tail => by
    obtain ⟨middle, first⟩ := head.switches
    obtain ⟨last, others, length⟩ := tail.switches
    subst middle
    refine ⟨by rw [last, Stmt.switchesBranches, LoweringState.afterSwitches_append], ?_,
      by simp [length]⟩
    simp only [Stmt.blocksBranches, map_append, first, others, Stmt.switchesBranches,
      LoweringState.sited_append]

end

end BodyContext

/-! ## Components -/

theorem Member.switches_lower (m : Member) : m.lower.flatMap Member.switches = m.switches := by
  cases m with
  | field f => by_cases plain : f.decorator = .none <;> simp [Member.lower, plain, Member.switches]
  | wrapper _ | accessors _ | method _ => simp [Member.lower]

theorem Component.switches_loweredMembers (c : Component) :
    c.loweredMembers.flatMap Member.switches = c.members.flatMap Member.switches := by
  simp only [loweredMembers, flatMap_assoc, Member.switches_lower]

namespace ModuleScope

variable {scope : ModuleScope} {c : Component}

theorem LowersMember.switches {m out : Member} {s s' : LoweringState}
    (lowers : scope.LowersMember c m s out s') :
    s' = s.afterSwitches m.switches ∧
      out.blocks.map BranchBlock.outline = (s.sited m.switches).map Switch.outline := by
  cases lowers with
  | builder isBuilder body =>
    obtain ⟨last, each⟩ := body.lowers.switches
    simp only [Member.switches, Member.blocks, if_pos isBuilder]
    exact ⟨last, each none none⟩
  | ordinary isOrdinary body =>
    simp only [Member.switches, Member.blocks, isOrdinary, Bool.false_eq_true, if_false]
    exact ⟨rfl, rfl⟩
  | field | wrapper | accessors => exact ⟨rfl, rfl⟩

theorem LowersMembers.switches {members out : List Member} {s s' : LoweringState}
    (lowers : scope.LowersMembers c members s out s') :
    s' = s.afterSwitches (members.flatMap Member.switches) ∧
      (out.flatMap Member.blocks).map BranchBlock.outline =
        (s.sited (members.flatMap Member.switches)).map Switch.outline := by
  induction lowers with
  | nil => exact ⟨rfl, rfl⟩
  | cons head tail ih =>
    obtain ⟨middle, first⟩ := head.switches
    subst middle
    obtain ⟨last, others⟩ := ih
    simp only [flatMap_cons, LoweringState.afterSwitches_append, LoweringState.sited_append,
      map_append, first, others]
    exact ⟨last, trivial⟩

theorem switches_of_lowerComponent {out : LoweredComponent}
    (lowered : scope.lowerComponent c = .ok out) :
    out.branchRegistry = (LoweringState.afterSwitches {} (scope.switches c)).registry ∧
      out.decl.blocks.map BranchBlock.outline =
        (LoweringState.sited {} (scope.switches c)).map Switch.outline := by
  obtain ⟨_, _, body, members, middle, last, render, methods, rfl⟩ :=
    lowerComponent_ok_iff.mp lowered
  obtain ⟨next, first⟩ := render.lowers.switches
  obtain ⟨final, others⟩ := methods.switches
  subst next
  rw [c.switches_loweredMembers] at final others
  rw [switches, LoweringState.afterSwitches_append, LoweringState.sited_append, map_append,
    Component.blocks, map_append, first none none, others, final]
  exact ⟨rfl, rfl⟩

end ModuleScope

/-- The entry of a conditional, as far as its block shows it. -/
def BranchSite.outline (entry : BranchSite) : UInt32 × Nat × Location :=
  (entry.site, entry.branchIds.length, entry.location)

theorem Switch.outline_comp_entry : BranchSite.outline ∘ Switch.entry = Switch.outline := by
  funext sited
  simp [Switch.entry, Switch.outline, BranchSite.outline]

namespace Switch

variable {sited : List (Switch × UInt32)} {blocks : List BranchBlock}

theorem zip_eq_sited (same : blocks.map BranchBlock.outline = sited.map Switch.outline) :
    ((sited.map (·.1)).zip blocks).map (fun p => (p.1, p.2.site)) = sited := by
  induction sited generalizing blocks with
  | nil => rfl
  | cons first sited ih =>
    obtain ⟨block, blocks, rfl, head, tail⟩ := map_eq_cons_iff.mp same
    have site : block.site = first.2 := congrArg (·.1) head
    rw [map_cons, zip_cons_cons, map_cons, ih tail, site]

theorem sites_eq (same : blocks.map BranchBlock.outline = sited.map Switch.outline) :
    blocks.map (·.site) = sited.map (·.2) := by
  have firsts := congrArg (List.map (·.1)) same
  rw [map_map, map_map] at firsts
  exact firsts

/-- Blocks show their conditionals, and keep the sites that these have. -/
theorem forall₂_blocks (same : blocks.map BranchBlock.outline = sited.map Switch.outline)
    (known : ∀ p ∈ sited, ∀ site, p.1.site? = some site → p.2 = site) :
    List.Forall₂ (fun switch block =>
      (∀ site, switch.site? = some site → block.site = site) ∧
        block.arms.length = switch.arms ∧ block.location = switch.location)
      (sited.map (·.1)) blocks := by
  have each := same.symm
  rw [← forall₂_eq_eq_eq, forall₂_map_left_iff, forall₂_map_right_iff] at each
  rw [forall₂_map_left_iff]
  refine ((forall₂_and_left _ _).mpr ⟨known, each⟩).imp ?_
  rintro p block ⟨known, same⟩
  simp only [Switch.outline, BranchBlock.outline, Prod.mk.injEq] at same
  exact ⟨fun site has => same.1.symm.trans (known site has), same.2.1.symm, same.2.2.symm⟩

end Switch

/-- What is true of the sites of a component that was lowered from conditionals in both forms. -/
structure KeepsSites (switches : List Switch) (blocks : List BranchBlock)
    (registry : BranchRegistry) : Prop where
  /-- The blocks are the conditionals, and those that have a site keep it. -/
  kept : List.Forall₂ (fun switch block =>
    (∀ site, switch.site? = some site → block.site = site) ∧
      block.arms.length = switch.arms ∧ block.location = switch.location) switches blocks
  /-- A conditional without a site gets one that is above all sites before it. -/
  above : (switches.zip blocks).Pairwise fun before after =>
    after.1.site? = none → before.2.site < after.2.site
  /-- So the sites are distinct unless one that was given is met later at a block that had it. -/
  distinct : (blocks.map (·.site)).Nodup ↔ (switches.zip blocks).Pairwise fun before after =>
    before.1.site? = none → after.1.site? ≠ none → before.2.site ≠ after.2.site
  /-- The registry has the first block of every site. -/
  first : ∀ site, (registry.get? site).map BranchSite.outline =
    (blocks.find? (·.site = site)).map BranchBlock.outline
  /-- If the sites are distinct, it has one entry for each block. -/
  registered : (blocks.map (·.site)).Nodup →
    registry.sites.map BranchSite.outline = blocks.map BranchBlock.outline

namespace ModuleScope

variable {scope : ModuleScope} {c : Component}

/-- Sites below the largest word are counted without a carry, which is what `bounded` asks for. -/
theorem sites_of_partly_lowered {out : LoweredComponent}
    (lowered : scope.lowerComponent c = .ok out)
    (distinct : ((scope.switches c).filterMap (·.site?)).Nodup)
    (bounded : ∀ block ∈ out.decl.blocks, block.site.toNat + 1 < 2 ^ 32) :
    KeepsSites (scope.switches c) out.decl.blocks out.branchRegistry := by
  obtain ⟨registry, outlines⟩ := switches_of_lowerComponent lowered
  -- all parts are about the conditionals with the sites that the counter gives them
  generalize isSited : LoweringState.sited {} (scope.switches c) = sited at outlines
  have switches : scope.switches c = sited.map (·.1) := by rw [← isSited, LoweringState.map_sited]
  have zipped : ((scope.switches c).zip out.decl.blocks).map (fun p => (p.1, p.2.site)) = sited :=
    switches ▸ Switch.zip_eq_sited outlines
  have sites := Switch.sites_eq outlines
  have bounded' : ∀ p ∈ LoweringState.sited {} (scope.switches c), p.2.toNat + 1 < 2 ^ 32 := by
    intro p member
    have isSite : p.2 ∈ out.decl.blocks.map (·.site) := by
      rw [sites, ← isSited]
      exact mem_map_of_mem member
    obtain ⟨block, isBlock, same⟩ := mem_map.mp isSite
    rw [← same]
    exact bounded block isBlock
  constructor
  case kept =>
    rw [switches]
    apply Switch.forall₂_blocks outlines
    rw [← isSited]
    exact fun p member site => LoweringState.siteOf_of_mem_sited member
  case above =>
    have pairs := LoweringState.pairwise_sited bounded'
    rw [isSited, ← zipped, pairwise_map] at pairs
    exact pairs
  case distinct =>
    have pairs := LoweringState.nodup_sited_iff bounded' distinct
    rw [isSited, ← sites] at pairs
    rw [pairs]
    conv_lhs => rw [← zipped, pairwise_map]
  case first =>
    intro site
    have found := congrArg (List.find? (·.1 = site)) outlines
    rw [List.find?_map, List.find?_map] at found
    rw [registry, LoweringState.get?_afterSwitches, isSited]
    change ((sited.find? (·.2 = site)).map Switch.entry).map BranchSite.outline = _
    rw [Option.map_map, Switch.outline_comp_entry]
    exact found.symm
  case registered =>
    intro nodup
    rw [registry, LoweringState.sites_afterSwitches, isSited, outlines]
    · simp [Switch.outline_comp_entry]
    · rw [isSited, ← sites]
      exact nodup

end ModuleScope

/-! A panel with a lowered conditional at the start of its body and another one in a builder.  The
written ones get the numbers after them. -/

def mixedPanel : Component where
  name := "Panel"
  members := [.method ⟨"row", [], true, [
    .branch 7 [⟨some "this.wide", 0, [.choice [⟨some "this.tall", []⟩] ⟨9, 6⟩]⟩] ⟨8, 4⟩], {}⟩]
  render := { body := [
    .branch 0 [⟨some "this.shown", 0, []⟩, ⟨none, 1, []⟩] ⟨2, 4⟩,
    .choice [⟨some "this.wide", []⟩] ⟨5, 4⟩] }

theorem ModuleScope.sites_of_partly_lowered_mixedPanel :
    ∃ out, (ModuleScope.of ⟨"", [mixedPanel]⟩ {}).lowerComponent mixedPanel = .ok out ∧
      out.decl.blocks.map (·.site) = [0, 1, 7, 8] ∧
      out.branchRegistry.sites.map BranchSite.outline =
        [(0, 2, ⟨2, 4⟩), (1, 1, ⟨5, 4⟩), (7, 1, ⟨8, 4⟩), (8, 1, ⟨9, 6⟩)] := by
  have known : ((ModuleScope.of ⟨"", [mixedPanel]⟩ {}).lowerComponent mixedPanel).toOption.map
      (fun out => out.decl.blocks.map BranchBlock.outline) =
        some [(0, 2, ⟨2, 4⟩), (1, 1, ⟨5, 4⟩), (7, 1, ⟨8, 4⟩), (8, 1, ⟨9, 6⟩)] := by decide +kernel
  cases lowered : (ModuleScope.of ⟨"", [mixedPanel]⟩ {}).lowerComponent mixedPanel with
  | error d =>
    rw [lowered] at known
    cases known
  | ok out =>
    rw [lowered] at known
    have outlines := Option.some.inj known
    have sites : out.decl.blocks.map (·.site) = [0, 1, 7, 8] := by
      have firsts := congrArg (List.map (·.1)) outlines
      rw [map_map] at firsts
      exact firsts
    have bounded : ∀ block ∈ out.decl.blocks, block.site.toNat + 1 < 2 ^ 32 := by
      intro block member
      have isSite := mem_map_of_mem (f := (·.site)) member
      rw [sites] at isSite
      simp only [mem_cons, not_mem_nil, or_false] at isSite
      rcases isSite with same | same | same | same <;> rw [same] <;> decide
    have laws := ModuleScope.sites_of_partly_lowered lowered (by decide) bounded
    exact ⟨out, rfl, sites, (laws.registered (by rw [sites]; decide)).trans outlines⟩

/-- A conditional that is written before a lowered one.  Both get the site 0, and the registry has
    one entry for the two: the arms and the position of the first. -/
def clashingPanel : Component where
  name := "Panel"
  render := { body := [
    .choice [⟨some "this.wide", []⟩] ⟨2, 4⟩,
    .branch 0 [⟨some "this.shown", 0, []⟩, ⟨none, 1, []⟩] ⟨5, 4⟩] }

theorem ModuleScope.sites_clash_clashingPanel :
    (((ModuleScope.of ⟨"", [clashingPanel]⟩ {}).switches clashingPanel).filterMap (·.site?)).Nodup ∧
      ∃ out, (ModuleScope.of ⟨"", [clashingPanel]⟩ {}).lowerComponent clashingPanel = .ok out ∧
        out.decl.blocks.map BranchBlock.outline = [(0, 1, ⟨2, 4⟩), (0, 2, ⟨5, 4⟩)] ∧
        out.branchRegistry.sites.map BranchSite.outline = [(0, 1, ⟨2, 4⟩)] := by
  refine ⟨by decide, ?_⟩
  have known : ((ModuleScope.of ⟨"", [clashingPanel]⟩ {}).lowerComponent
      clashingPanel).toOption.map (fun out => (out.decl.blocks.map BranchBlock.outline,
        out.branchRegistry.sites.map BranchSite.outline)) =
        some ([(0, 1, ⟨2, 4⟩), (0, 2, ⟨5, 4⟩)], [(0, 1, ⟨2, 4⟩)]) := by decide +kernel
  cases lowered : (ModuleScope.of ⟨"", [clashingPanel]⟩ {}).lowerComponent clashingPanel with
  | error d =>
    rw [lowered] at known
    cases known
  | ok out =>
    rw [lowered] at known
    obtain ⟨blocks, registry⟩ := Prod.mk.inj (Option.some.inj known)
    exact ⟨out, rfl, blocks, registry⟩

end ReactiveView
