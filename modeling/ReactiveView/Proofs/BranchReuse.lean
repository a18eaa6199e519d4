import ReactiveView.Proofs.StableUpdates
import ReactiveView.Proofs.ViewNumbers

/-!
# Branches that are reported as kept

A view remembers for each conditional the branch of its last evaluation, however long ago that was.
So it reports a branch as kept if the last rendering that evaluated the conditional chose it, even if
the conditional lies in an arm that was not shown since.  A branch that was shown in the rendering
before is always reported as kept; the converse holds where that rendering evaluated the conditional.
-/

namespace ReactiveView

open List

/-! ## Bodies without loops -/

namespace Stmt

mutual

/-- Whether a statement has no loops. -/
def isLoopless : Stmt → Bool
  | .element _ children => areLoopless children
  | .choice arms _ => areLooplessArms arms
  | .branch _ arms _ => areLooplessBranches arms
  | .forEach _ _ | .items _ _ _ => false
  | .code _ _ | .opening _ | .closing _ => true

def areLoopless : List Stmt → Bool
  | [] => true
  | s :: rest => s.isLoopless && areLoopless rest

def areLooplessArms : List (Arm Stmt) → Bool
  | [] => true
  | ⟨_, body⟩ :: rest => areLoopless body && areLooplessArms rest

def areLooplessBranches : List (BranchArm Stmt) → Bool
  | [] => true
  | ⟨_, _, body⟩ :: rest => areLoopless body && areLooplessBranches rest

end

theorem areLoopless_append (first second : List Stmt) :
    areLoopless (first ++ second) = (areLoopless first && areLoopless second) := by
  induction first with
  | nil => rfl
  | cons s first ih => rw [cons_append, areLoopless, areLoopless, ih, Bool.and_assoc]

theorem areLoopless_of_getElem? {arms : List (BranchArm Stmt)} {position : Nat}
    {arm : BranchArm Stmt} (loopless : areLooplessBranches arms = true)
    (found : arms[position]? = some arm) :
    areLoopless arm.body = true ∧
      (conditionalsAll arm.body).Sublist (conditionalsBranches arms) := by
  induction arms generalizing position with
  | nil => cases found
  | cons first arms ih =>
    obtain ⟨condition, branchId, body⟩ := first
    rw [areLooplessBranches, Bool.and_eq_true] at loopless
    rw [conditionalsBranches]
    cases position with
    | zero =>
      cases found
      exact ⟨loopless.1, sublist_append_left _ _⟩
    | succ position =>
      obtain ⟨inner, sublist⟩ := ih loopless.2 found
      exact ⟨inner, sublist.trans (sublist_append_right _ _)⟩

end Stmt

namespace BodyContext

variable {ctx : BodyContext} {method : String}

mutual

theorem Lowers.areLoopless {stmt : Stmt} {out : List Stmt} {s s' : LoweringState} :
    Lowers ctx method stmt s out s' → stmt.isLoopless = true → Stmt.areLoopless out = true
  | .element _ body, loopless => by
    have inner := body.areLoopless loopless
    simp [Stmt.areLoopless, Stmt.areLoopless_append, Stmt.isLoopless, inner]
  | .choice _ each, loopless => by
    have inner := each.areLoopless loopless
    simp [conditional, Stmt.areLoopless, Stmt.isLoopless, inner]
  | .code _, _ | .opening, _ | .closing, _ => rfl
  | .branch each, loopless => by
    have inner := each.areLoopless loopless
    simp [Stmt.areLoopless, Stmt.isLoopless, inner]

theorem LowersAll.areLoopless {body out : List Stmt} {s s' : LoweringState} :
    LowersAll ctx method body s out s' → Stmt.areLoopless body = true → Stmt.areLoopless out = true
  | .nil, _ => rfl
  | .cons head tail, loopless => by
    rw [Stmt.areLoopless, Bool.and_eq_true] at loopless
    rw [Stmt.areLoopless_append, head.areLoopless loopless.1, tail.areLoopless loopless.2]
    rfl

theorem LowersArms.areLoopless {site : UInt32} {location : Location} {index : Nat}
    {arms : List (Arm Stmt)} {out : List (BranchArm Stmt)} {s s' : LoweringState} :
    LowersArms ctx method site location index arms s out s' → Stmt.areLooplessArms arms = true →
      Stmt.areLooplessBranches out = true
  | .nil, _ => rfl
  | .cons _ head tail, loopless => by
    rw [Stmt.areLooplessArms, Bool.and_eq_true] at loopless
    have inner := head.areLoopless loopless.1
    simp [armBody, Stmt.areLooplessBranches, Stmt.areLoopless, Stmt.areLoopless_append,
      Stmt.isLoopless, inner, tail.areLoopless loopless.2]

theorem LowersKnown.areLoopless {arms out : List (BranchArm Stmt)} {s s' : LoweringState} :
    LowersKnown ctx method arms s out s' → Stmt.areLooplessBranches arms = true →
      Stmt.areLooplessBranches out = true
  | .nil, _ => rfl
  | .cons head tail, loopless => by
    rw [Stmt.areLooplessBranches, Bool.and_eq_true] at loopless
    rw [Stmt.areLooplessBranches, head.areLoopless loopless.1, tail.areLoopless loopless.2]
    rfl

end

end BodyContext

theorem choices_append (first second : List RenderVisit) :
    choices (first ++ second) = choices first ++ choices second :=
  filterMap_append

-- Without loops an execution goes through a body once, so it meets each conditional at most once.
mutual

theorem CoversStmt.sites {path : List String} {index : Nat} {s : Stmt} {visits : List RenderVisit} :
    CoversStmt path index s visits → s.isLoopless = true →
      ((choices visits).map (·.1)).Sublist (s.conditionals.map (·.1))
  | .plain _, _ | .child _, _ | .closing, _ | .code, _ => .slnil
  | .none, _ => (nil_sublist _).cons_cons _
  | .arm chosen inner, loopless => by
    obtain ⟨loopless, sublist⟩ := Stmt.areLoopless_of_getElem? loopless chosen
    exact ((inner.sites loopless).trans (sublist.map _)).cons_cons _
  | .items _, loopless => by cases loopless

theorem Covers.sites {path : List String} {index : Nat} {body : List Stmt}
    {visits : List RenderVisit} :
    Covers path index body visits → Stmt.areLoopless body = true →
      ((choices visits).map (·.1)).Sublist ((Stmt.conditionalsAll body).map (·.1))
  | .nil, _ => .slnil
  | .cons head tail, loopless => by
    rw [Stmt.areLoopless, Bool.and_eq_true] at loopless
    rw [choices_append, map_append, Stmt.conditionalsAll, map_append]
    exact (head.sites loopless.1).append (tail.sites loopless.2)

end

/-! ## Recorded renderings -/

/-- The branch at the last evaluation of a conditional, if there was one.  The renderings are given by
    what they recorded, last first. -/
def lastShown (log : List (List BranchChoice)) (site : UInt32) : Option (Option UInt32) :=
  log.findSome? fun recorded => (recorded.find? (·.site = site)).map (·.branchId)

/-- The rendering before evaluated the conditional. -/
def EvaluatedBefore (log : List (List BranchChoice)) (site : UInt32) : Prop :=
  ∃ recorded, log.head? = some recorded ∧ ∃ choice ∈ recorded, choice.site = site

/-- The rendering before showed the branch, or none as now. -/
def ShownBefore (log : List (List BranchChoice)) (site : UInt32) (branchId : Option UInt32) : Prop :=
  ∃ recorded, log.head? = some recorded ∧
    ∃ choice ∈ recorded, choice.site = site ∧ choice.branchId = branchId

/-- What the renderings of a view recorded one after the other, and what it remembers then. -/
inductive Told (catalog : Catalog) (name : String) : List (List BranchChoice) → BranchHistory → Prop
  | unrendered : Told catalog name [] {}
  | rendered {log : List (List BranchChoice)} {t : BranchHistory} {c : Component}
      {visits : List RenderVisit} (before : Told catalog name log t)
      (found : catalog.find? name = some c) (covers : Covers [] 0 c.render.body visits) :
      Told catalog name ((t.record (choices visits)).1 :: log) (t.record (choices visits)).2

namespace BranchHistory

variable {t t' : BranchHistory} {made : List (UInt32 × Option UInt32)}

theorem activate_congr {site : UInt32} (same : t'.choices.lookup site = t.choices.lookup site)
    (branchId : Option UInt32) : (t'.activate site branchId).1 = (t.activate site branchId).1 := by
  unfold activate
  rw [same]

/-- What is recorded of a choice depends on what was remembered before, if no conditional comes
    twice. -/
theorem activation_of_mem_record (once : (made.map (·.1)).Nodup) {choice : BranchChoice}
    (member : choice ∈ (t.record made).1) :
    choice.activation = (t.activate choice.site choice.branchId).1 := by
  induction made generalizing t with
  | nil => cases member
  | cons first made ih =>
    obtain ⟨site, branchId⟩ := first
    rw [map_cons, nodup_cons] at once
    rcases mem_cons.mp member with rfl | later
    · rfl
    · have isMade : (choice.site, choice.branchId) ∈ made := by
        rw [← map_record (t.activate site branchId).2 made]
        exact mem_map_of_mem later
      have isSite : choice.site ∈ made.map (·.1) := mem_map_of_mem isMade
      have other : choice.site ≠ site := fun same => once.1 (same ▸ isSite)
      rw [ih once.2 later]
      exact activate_congr ((lookup_activate t site choice.site branchId).trans (if_neg other)) _

theorem lookup_reverse (once : (made.map (·.1)).Nodup) (site : UInt32) :
    made.reverse.lookup site = made.lookup site := by
  induction made with
  | nil => rfl
  | cons first made ih =>
    rw [map_cons, nodup_cons] at once
    rw [reverse_cons, lookup_append, ih once.2, List.lookup_cons, List.lookup_cons,
      lookup_nil]
    cases same : site == first.1 with
    | false => rw [Option.or_none]
    | true =>
      have absent : made.lookup site = none := by
        rw [lookup_eq_none_iff]
        rintro ⟨other, branchId⟩ member
        rw [bne_iff_ne]
        rintro rfl
        exact once.1 (eq_of_beq same ▸ mem_map_of_mem member)
      rw [absent, Option.none_or]

theorem lookup_made (t : BranchHistory) (made : List (UInt32 × Option UInt32)) (site : UInt32) :
    ((t.record made).1.find? (·.site = site)).map (·.branchId) = made.lookup site := by
  induction made generalizing t with
  | nil => rfl
  | cons first made ih =>
    rw [record, List.find?_cons, List.lookup_cons]
    by_cases same : first.1 = site
    · simp [same]
    · have differs : (site == first.1) = false := beq_false_of_ne (Ne.symm same)
      simp only [same, decide_false, differs]
      exact ih _

end BranchHistory

namespace Told

variable {catalog : Catalog} {name : String} {c : Component} {log : List (List BranchChoice)}
  {t : BranchHistory}

section

variable (found : catalog.find? name = some c)
  (once : ∀ visits, Covers [] 0 c.render.body visits → ((choices visits).map (·.1)).Nodup)
include found once

/-- A view remembers the last evaluations. -/
theorem lookup_eq_lastShown (told : Told catalog name log t) (site : UInt32) :
    t.choices.lookup site = lastShown log site := by
  induction told with
  | unrendered => rfl
  | @rendered log t c' visits _ found' covers ih =>
    cases found.symm.trans found'
    rw [BranchHistory.lookup_record, BranchHistory.lookup_reverse (once visits covers), ih]
    change _ = List.findSome? _ (_ :: log)
    rw [List.findSome?_cons, BranchHistory.lookup_made]
    cases (choices visits).lookup site <;> rfl

theorem reuse_iff (told : Told catalog name log t) {later earlier : List (List BranchChoice)}
    {recorded : List BranchChoice} (split : log = later ++ recorded :: earlier)
    {choice : BranchChoice} (member : choice ∈ recorded) :
    choice.activation = .reuse ↔ lastShown earlier choice.site = some choice.branchId := by
  induction told generalizing later with
  | unrendered =>
    have length := congrArg List.length split
    simp at length
  | @rendered log t c' visits before found' covers ih =>
    cases later with
    | cons first later => exact ih (List.cons.inj split).2
    | nil =>
      obtain ⟨rfl, rfl⟩ := List.cons.inj split
      cases found.symm.trans found'
      rw [BranchHistory.activation_of_mem_record (once visits covers) member,
        BranchHistory.activate_eq_reuse_iff, before.lookup_eq_lastShown found once]

/-- What the rendering before showed is what was shown last, if it evaluated the conditional. -/
theorem shownBefore_iff (told : Told catalog name log t) (site : UInt32) (branchId : Option UInt32) :
    ShownBefore log site branchId ↔
      EvaluatedBefore log site ∧ lastShown log site = some branchId := by
  cases told with
  | unrendered =>
    refine iff_of_false ?_ ?_
    · rintro ⟨_, none, _⟩
      cases none
    · rintro ⟨⟨_, none, _⟩, _⟩
      cases none
  | @rendered log t c' visits before found' covers =>
    cases found.symm.trans found'
    have unique : (((t.record (choices visits)).1).map (·.site)).Nodup := by
      have once := once visits covers
      rw [← BranchHistory.map_record t (choices visits), map_map] at once
      exact once
    have first (choice : BranchChoice) (member : choice ∈ (t.record (choices visits)).1) :
        ∃ other ∈ (t.record (choices visits)).1, other.site = choice.site ∧
          ((t.record (choices visits)).1).find? (·.site = choice.site) = some other := by
      cases isFirst : ((t.record (choices visits)).1).find? (·.site = choice.site) with
      | none => simpa using List.find?_eq_none.mp isFirst choice member
      | some other =>
        exact ⟨other, mem_of_find?_eq_some isFirst, by simpa using List.find?_some isFirst, rfl⟩
    constructor
    · rintro ⟨_, same, choice, member, rfl, rfl⟩
      cases same
      refine ⟨⟨_, rfl, choice, member, rfl⟩, ?_⟩
      obtain ⟨other, isOther, site, isFirst⟩ := first choice member
      cases inj_on_of_nodup_map unique isOther member site
      simp [lastShown, isFirst]
    · rintro ⟨⟨_, same, choice, member, rfl⟩, shown⟩
      cases same
      obtain ⟨other, isOther, site, isFirst⟩ := first choice member
      rw [lastShown, List.findSome?_cons, isFirst] at shown
      exact ⟨_, rfl, other, isOther, site, Option.some.inj shown⟩

end

theorem of_append (told : Told catalog name log t) {later earlier : List (List BranchChoice)}
    (split : log = later ++ earlier) : ∃ t', Told catalog name earlier t' := by
  induction later generalizing log t with
  | nil =>
    subst split
    exact ⟨t, told⟩
  | cons recorded later ih =>
    cases told with
    | unrendered => cases split
    | rendered before _ _ => exact ih before (List.cons.inj split).2

end Told

/-! ## Views of a session -/

namespace View

/-- Two states of a view between which it was not rendered. -/
structure SameRecord (v v' : View) : Prop where
  name : v'.name = v.name
  number : v'.number = v.number
  renders : v'.renders = v.renders
  history : v'.history = v.history
  activations : v'.activations = v.activations

theorem SameRecord.refl (v : View) : v.SameRecord v := ⟨rfl, rfl, rfl, rfl, rfl⟩

/-- Where one view of a tree is changed, the others stay as they are apart from their children. -/
theorem perm_of_modify {α : Type} {f : View → α × View} {path : List String} {root root' : View}
    {a : α} (modified : modify f path root = some (a, root')) :
    ∃ v v' rest rest', f v = (a, v') ∧ root.subviews.Perm (v.subviews ++ rest) ∧
      root'.subviews.Perm (v'.subviews ++ rest') ∧
      rest'.map (·.number) = rest.map (·.number) ∧ ∀ u' ∈ rest', ∃ u ∈ rest, u.SameRecord u' := by
  induction path generalizing root root' with
  | nil =>
    refine ⟨root, root', [], [], Option.some.inj modified, ?_, ?_, rfl, ?_⟩
    · rw [append_nil]
    · rw [append_nil]
    · exact forall_mem_nil _
  | cons name path ih =>
    obtain ⟨⟨_, children'⟩, changed, same⟩ := Option.map_eq_some_iff.mp modified
    cases same
    obtain ⟨before, key, child, child', after, children, inner, rfl, _⟩ :=
      modifyChild_eq_some changed
    obtain ⟨v, v', rest, rest', isChange, perm, perm', numbers, others⟩ := ih inner
    -- the view itself and its other children come to the rest
    have whole {u : View} {rest₀ : List View} {child₀ root₀ : View}
        (isRoot : root₀.keyedChildren = before ++ (key, child₀) :: after)
        (inner : child₀.subviews.Perm (u.subviews ++ rest₀)) :
        root₀.subviews.Perm
          (u.subviews ++ (rest₀ ++ root₀ :: (subviewsAll before ++ subviewsAll after))) := by
      have outer := (((perm_append_comm_assoc (subviewsAll before) child₀.subviews
        (subviewsAll after)).trans (inner.append_right _)).cons root₀).trans perm_middle.symm
      rw [append_assoc] at outer
      rw [subviews_eq, isRoot, subviewsAll_eq, flatMap_append, flatMap_cons,
        ← subviewsAll_eq, ← subviewsAll_eq]
      exact outer
    refine ⟨v, v', _, _, isChange, whole children perm, whole rfl perm', ?_, ?_⟩
    · rw [map_append, map_append, numbers]
      rfl
    · rw [forall_mem_append, forall_mem_cons]
      refine ⟨fun u' member => ?_, ⟨root, by simp, rfl, rfl, rfl, rfl, rfl⟩, fun u member => ?_⟩
      · obtain ⟨u, isOld, same⟩ := others u' member
        exact ⟨u, mem_append_left _ isOld, same⟩
      · exact ⟨u, mem_append_right _ (mem_cons_of_mem _ member), .refl u⟩

end View

namespace ViewSession

open View (AreNumbered)

/-- The views of a session. -/
def views (s : ViewSession) : List View := s.root.toList.flatMap View.subviews

/-- What is recorded of the renderings of each view, given by its number, last rendering first. -/
abbrev Chronicle := Nat → List (List BranchChoice)

/-- What is recorded after a step: a view that was rendered since adds what it recorded then. -/
def noted (s : ViewSession) (log : Chronicle) : Chronicle := fun number =>
  match s.views.find? (·.number = number) with
  | some v =>
    if v.renders = .ofNat (log number).length then log number else v.activations :: log number
  | none => log number

/-- A step of a session, where updates succeed. -/
inductive Turn : ViewSession → ViewSession → Prop
  | mount {s : ViewSession} (name : String) : Turn s (s.mount name).2
  | update {s s' : ViewSession} {path : List String} (ran : s.update path = (.ok (), s')) : Turn s s'
  | set {s s' : ViewSession} {path : List PathStep} {field : String} {value : Json} {has : Bool}
      (ran : s.set path field value = .ok (has, s')) : Turn s s'
  | watch {s s' : ViewSession} {id : String} {path : List PathStep} {field : String}
      {trigger : Option Json} {effect : Option (List PathStep × String × Json)}
      (ran : s.watch id path field trigger effect = .ok s') : Turn s s'
  | unwatch {s : ViewSession} (id : String) : Turn s (s.unwatch id).2
  | takeEvents {s : ViewSession} : Turn s s.takeEvents.2

/-- A session with what was recorded from its start on. -/
inductive Chronicled (catalog : Catalog) : ViewSession → Chronicle → Prop
  | start : Chronicled catalog { catalog } fun _ => []
  | turn {s s' : ViewSession} {log : Chronicle} (before : Chronicled catalog s log)
      (turn : s.Turn s') : Chronicled catalog s' (s'.noted log)

/-- What was recorded is the past of a view. -/
structure Recounts (catalog : Catalog) (log : List (List BranchChoice)) (v : View) : Prop where
  told : Told catalog v.name log v.history
  renders : v.renders = .ofNat log.length
  last : log.head?.getD [] = v.activations

/-- The record is right about the views of a session, and empty for those that are not made yet. -/
structure IsRecorded (catalog : Catalog) (s : ViewSession) (log : Chronicle) : Prop where
  components : s.catalog = catalog
  numbered : AreNumbered s.views s.world.views
  recounts : ∀ v ∈ s.views, Recounts catalog (log v.number) v
  unborn : ∀ number, s.world.views ≤ number → log number = []

variable {catalog : Catalog} {s s' : ViewSession} {log : Chronicle}

theorem views_of_root {root : View} (isRoot : s.root = some root) : s.views = root.subviews := by
  simp [views, isRoot]

theorem find?_views (numbered : AreNumbered s.views s.world.views) {v : View} (member : v ∈ s.views) :
    s.views.find? (·.number = v.number) = some v := by
  cases found : s.views.find? (·.number = v.number) with
  | none => simpa using List.find?_eq_none.mp found v member
  | some other =>
    have same : other.number = v.number := by simpa using List.find?_some found
    exact congrArg some (inj_on_of_nodup_map numbered.distinct
      (mem_of_find?_eq_some found) member same)

section

variable (recorded : IsRecorded catalog s log)
include recorded

/-- The step lemma: every view of the new state was not rendered, or was rendered once, or is new and
    was rendered once. -/
theorem IsRecorded.step (components : s'.catalog = s.catalog)
    (grown : s.world.views ≤ s'.world.views) (numbered : AreNumbered s'.views s'.world.views)
    (each : ∀ v' ∈ s'.views, (∃ v ∈ s.views, v.SameRecord v') ∨
      v'.IsRenewed catalog s.world.views s.views) :
    IsRecorded catalog s' (s'.noted log) := by
  refine ⟨components.trans recorded.components, numbered, fun v' member => ?_, fun n above => ?_⟩
  · rw [noted, find?_views numbered member]
    dsimp only
    rcases each v' member with ⟨v, isOld, same⟩ | ⟨v, renders, from_⟩
    · obtain ⟨told, count, last⟩ := recorded.recounts v isOld
      rw [← same.number] at told count last
      rw [if_pos (same.renders.trans count)]
      refine ⟨?_, same.renders.trans count, last.trans same.activations.symm⟩
      rw [same.name, same.history]
      exact told
    · have before : Told catalog v.name (log v'.number) v.history ∧
          v.renders = .ofNat (log v'.number).length := by
        rw [renders.same.number]
        rcases from_ with isOld | new
        · obtain ⟨told, count, _⟩ := recorded.recounts v isOld
          exact ⟨told, count⟩
        · rw [recorded.unborn _ new.number, new.history, new.renders]
          exact ⟨.unrendered, rfl⟩
      obtain ⟨told, count⟩ := before
      obtain ⟨c, visits, found, covers, chosen⟩ := renders.covers
      have next : v'.renders = .ofNat ((log v'.number).length + 1) := by
        rw [renders.renders, count, UInt32.ofNat_add]
        rfl
      rw [if_neg (by simp [next])]
      refine ⟨?_, next, rfl⟩
      rw [renders.same.name, renders.activations, renders.history, chosen]
      exact told.rendered found covers
  -- a number that is not given yet belongs to no view
  · have unmade : s'.views.find? (·.number = n) = none := by
      refine List.find?_eq_none.mpr fun v member => ?_
      have given := numbered.given v member
      simp only [decide_eq_true_eq]
      omega
    rw [noted, unmade]
    exact recorded.unborn n (Nat.le_trans grown above)

/-- A step in which no view is touched. -/
theorem IsRecorded.idle (components : s'.catalog = s.catalog) (root : s'.root = s.root)
    (made : s'.world.views = s.world.views) :
    IsRecorded catalog s' (s'.noted log) := by
  have views : s'.views = s.views := by rw [ViewSession.views, root, ViewSession.views]
  refine recorded.step components (Nat.le_of_eq made.symm) ?_ fun v' member => .inl ?_
  · rw [views, made]
    exact recorded.numbered
  · rw [views] at member
    exact ⟨v', member, .refl v'⟩

theorem IsRecorded.update {path : List String} (ran : s.update path = (.ok (), s')) :
    IsRecorded catalog s' (s'.noted log) := by
  unfold ViewSession.update at ran
  dsimp only at ran
  split at ran
  · cases ran
  next result world root modified =>
    obtain ⟨root₀, isRoot, modified⟩ := Option.bind_eq_some_iff.mp modified
    obtain ⟨v, v', rest, rest', changed, perm, perm', numbers, others⟩ :=
      View.perm_of_modify modified
    have rendered : s.catalog.render Catalog.depthLimit v [] s.world = (result, v', world) := by
      rw [Prod.mk.injEq, Prod.mk.injEq] at changed
      obtain ⟨⟨rfl, rfl⟩, rfl⟩ := changed
      rfl
    cases result with
    | error fault => cases ran
    | ok _ =>
      cases ran
      rw [recorded.components] at rendered
      obtain ⟨grown, renewed, own⟩ := catalog.render_renews _ _ _ _ _ _ rendered
      have views := views_of_root isRoot
      have views' := views_of_root (s := { s with world, root := some root }) rfl
      have old : ∀ u ∈ v.subviews ++ rest, u ∈ s.views := fun u member => by
        rw [views]
        exact perm.symm.subset member
      refine recorded.step rfl grown ?_ fun u' member => ?_
      -- numbers below the view are old or new, and those around it stay
      · have before := recorded.numbered
        rw [views] at before
        have before := before.of_subperm perm.symm.subperm (Nat.le_refl _)
        have inner := own (before.of_subperm (sublist_append_left _ _).subperm (Nat.le_refl _))
        have after := before.replace inner grown fun u' member => by
          obtain ⟨u, renders, old | new⟩ := renewed u' member
          · exact .inl ⟨u, old, renders.same.number.symm⟩
          · exact .inr (renders.same.number ▸ new.number)
        rw [views']
        refine AreNumbered.of_subperm (after.congr ?_) perm'.subperm (Nat.le_refl _)
        rw [map_append, map_append, numbers]
      · rw [views'] at member
        rcases mem_append.mp (perm'.subset member) with inside | outside
        · refine .inr ((renewed u' inside).mono (Nat.le_refl _) fun u isOld => .inl ?_)
          exact old u (mem_append_left _ isOld)
        · obtain ⟨u, isOld, same⟩ := others u' outside
          exact .inl ⟨u, old u (mem_append_right _ isOld), same⟩

theorem IsRecorded.mount (name : String) :
    IsRecorded catalog (s.mount name).2 ((s.mount name).2.noted log) := by
  have cleared : s.clear.world.views = s.world.views := by
    have watches (w : World) (given : List (Reactive.SubscriptionId × Option Reactive.CellId)) :
        (given.foldl dropWatch w).views = w.views := by
      induction given generalizing w with
      | nil => rfl
      | cons watch given ih => exact ih _
    unfold clear
    cases s.root <;> exact watches _ _
  obtain ⟨grown, mounted⟩ := catalog.mountTo_renews Catalog.depthLimit name s.clear.world
  rw [cleared] at grown mounted
  have same : s.clear.catalog = catalog := recorded.components
  unfold ViewSession.mount
  dsimp only
  rw [same, Catalog.mount]
  split
  next root world ran =>
    rw [ran] at grown mounted
    obtain ⟨numbered, renewed⟩ := mounted root rfl
    rw [← views_of_root (s := { s.clear with world, root := some root }) rfl] at numbered renewed
    refine recorded.step recorded.components.symm grown numbered fun v' member => .inr ?_
    exact (renewed v' member).mono (Nat.le_refl _) fun v isOld => absurd isOld not_mem_nil
  next fault world ran =>
    rw [ran] at grown
    refine recorded.step recorded.components.symm grown ⟨nodup_nil, ?_⟩ ?_
    · exact fun v member => absurd member not_mem_nil
    · exact fun v member => absurd member not_mem_nil

theorem IsRecorded.turn (turn : s.Turn s') : IsRecorded catalog s' (s'.noted log) := by
  cases turn with
  | mount name => exact recorded.mount name
  | update ran => exact recorded.update ran
  | set ran =>
    obtain ⟨v, _, ran⟩ := except_bind_ok_iff.mp ran
    split at ran
    · cases ran
      exact recorded.idle rfl rfl (World.views_set _ _ _)
    · cases ran
      exact recorded.idle rfl rfl rfl
  | @watch _ id path field trigger effect ran =>
    obtain ⟨c, _, ran⟩ := except_bind_ok_iff.mp ran
    obtain ⟨written, _, ran⟩ := except_bind_ok_iff.mp ran
    cases ran
    refine recorded.idle rfl rfl ?_
    cases s.watches.lookup id <;> rfl
  | unwatch id =>
    unfold ViewSession.unwatch
    split
    · exact recorded.idle rfl rfl rfl
    · exact recorded.idle rfl rfl rfl
  | takeEvents => exact recorded.idle rfl rfl rfl

end

/-- The run lemma. -/
theorem isRecorded_of_chronicled (chronicled : Chronicled catalog s log) :
    IsRecorded catalog s log := by
  induction chronicled with
  | start =>
    refine ⟨rfl, ⟨nodup_nil, ?_⟩, ?_, fun _ _ => rfl⟩
    · exact fun v member => absurd member not_mem_nil
    · exact fun v member => absurd member not_mem_nil
  | turn _ turn ih => exact ih.turn turn

end ViewSession

theorem ModuleScope.nodup_sites {scope : ModuleScope} {d : Component} {out : LoweredComponent}
    (lowered : scope.lowerComponent d = .ok out) (source : Stmt.areSource d.render.body = true)
    (loopless : Stmt.areLoopless d.render.body = true)
    (few : (Stmt.conditionalsAll out.decl.render.body).length ≤ 2 ^ 32) (visits : List RenderVisit)
    (covers : Covers [] 0 out.decl.render.body visits) :
    ((ReactiveView.choices visits).map (·.1)).Nodup := by
  obtain ⟨_, _, body, members, middle, last, render, methods, rfl⟩ :=
    lowerComponent_ok_iff.mp lowered
  have numbered := (render.lowers.numbered source (forall_mem_nil _) rfl).1
  refine .sublist (covers.sites (render.lowers.areLoopless loopless)) ?_
  change ((Stmt.conditionalsAll body).map (·.1)).Nodup
  rw [numbered.sites]
  refine nodup_ofNat nodup_range' fun n member => ?_
  have bound := (mem_range'_1.mp member).2
  exact Nat.lt_of_lt_of_le bound (by simpa using few)

/-- A view of a component without loops reports a branch as kept if and only if it was chosen at the
    last evaluation of the conditional.  So every branch that the rendering before showed is reported
    as kept, and one that is reported as kept was shown by it if and only if it evaluated the
    conditional. -/
theorem ViewSession.reuse_iff_lastShown {catalog : Catalog} {s : ViewSession} {log : Chronicle}
    (chronicled : Chronicled catalog s log) {v : View} (mounted : v ∈ s.views) {scope : ModuleScope}
    {d : Component} {out : LoweredComponent} (lowered : scope.lowerComponent d = .ok out)
    (found : catalog.find? v.name = some out.decl) (source : Stmt.areSource d.render.body = true)
    (loopless : Stmt.areLoopless d.render.body = true)
    (few : (Stmt.conditionalsAll out.decl.render.body).length ≤ 2 ^ 32) :
    .ofNat (log v.number).length = v.renders ∧ (log v.number).head?.getD [] = v.activations ∧
      ∀ later recorded earlier, log v.number = later ++ recorded :: earlier →
        ∀ choice ∈ recorded,
          (choice.activation = .reuse ↔ lastShown earlier choice.site = some choice.branchId) ∧
          (ShownBefore earlier choice.site choice.branchId → choice.activation = .reuse) ∧
          (choice.activation = .reuse → (ShownBefore earlier choice.site choice.branchId ↔
            EvaluatedBefore earlier choice.site)) := by
  obtain ⟨told, renders, last⟩ := (isRecorded_of_chronicled chronicled).recounts v mounted
  have once := ModuleScope.nodup_sites lowered source loopless few
  refine ⟨renders.symm, last, fun later recorded earlier split choice member => ?_⟩
  have reuse := told.reuse_iff found once split member
  have before : ∃ t, Told catalog v.name earlier t := by
    rw [append_cons] at split
    exact told.of_append split
  obtain ⟨t, before⟩ := before
  have shown := before.shownBefore_iff found once choice.site choice.branchId
  refine ⟨reuse, fun isShown => reuse.mpr (shown.mp isShown).2, fun isReuse => ?_⟩
  rw [shown]
  exact and_iff_left (reuse.mp isReuse)

/-! A page with a note that is shown while the page is open and the note is not read.  The page is
closed and opened again: the note is a new one, and the conditional around it is not evaluated while
the page is closed, but its branch is reported as kept. -/

namespace ClosedPage

def note : Component where
  name := "Note"
  members := [.field { name := "read", decorator := .state, initializer := some "false" }]
  render := { body := [] }

def page : Component where
  name := "Page"
  isEntry := true
  members := [
    .field { name := "open", decorator := .state, initializer := some "true" },
    .field { name := "fresh", decorator := .state, initializer := some "true" }]
  render := { body := [
    .choice [⟨some "this.open", [
      .choice [⟨some "this.fresh", [.element { name := "Note" } []]⟩] {}]⟩] {}] }

def file : Module := ⟨"page.ets", [page, note]⟩

def start : ViewSession × ViewSession.Chronicle :=
  let s := (ViewSession.mount { catalog := .ofOutput (file.lower {}) } "Page").2
  (s, s.noted fun _ => [])

/-- Open or close the page. -/
def switched (past : ViewSession × ViewSession.Chronicle) (on : Bool) :
    Except ViewFault (ViewSession × ViewSession.Chronicle) := do
  let (_, s) ← past.1.set [] "open" (.bool on)
  match s.update [] with
  | (.ok (), s') => return (s', s'.noted (s.noted past.2))
  | (.error fault, _) => throw fault

def reopened : Except ViewFault (ViewSession × ViewSession.Chronicle) := do
  switched (← switched start false) true

theorem chronicled_switched {catalog : Catalog} {past past' : ViewSession × ViewSession.Chronicle}
    {on : Bool} (chronicled : ViewSession.Chronicled catalog past.1 past.2)
    (ran : switched past on = .ok past') : ViewSession.Chronicled catalog past'.1 past'.2 := by
  obtain ⟨⟨_, s⟩, turned, ran⟩ := except_bind_ok_iff.mp ran
  dsimp only at ran
  split at ran
  next s' updated =>
    cases ran
    exact (chronicled.turn (.set turned)).turn (.update updated)
  · cases ran

theorem exists_reopened :
    ∃ s log v, ViewSession.Chronicled (.ofOutput (file.lower {})) s log ∧ v ∈ s.views ∧
      v.name = "Page" ∧ s.views.map (fun u => (u.name, u.number, u.renders)) =
        [("Page", 0, 3), ("Note", 2, 1)] ∧
      log v.number = [[⟨0, some 0, .rebuild⟩, ⟨1, some 0, .reuse⟩], [⟨0, none, .rebuild⟩],
        [⟨0, some 0, .initial⟩, ⟨1, some 0, .initial⟩]] := by
  have facts : reopened.toOption.map (fun past =>
      (past.1.views.map (fun u => (u.name, u.number, u.renders)), past.2 0)) =
        some ([("Page", 0, 3), ("Note", 2, 1)],
          [[⟨0, some 0, .rebuild⟩, ⟨1, some 0, .reuse⟩], [⟨0, none, .rebuild⟩],
            [⟨0, some 0, .initial⟩, ⟨1, some 0, .initial⟩]]) := by decide +kernel
  cases ran : reopened with
  | error fault =>
    rw [ran] at facts
    cases facts
  | ok past =>
    rw [ran] at facts
    obtain ⟨views, log⟩ := Prod.mk.inj (Option.some.inj facts)
    obtain ⟨closed, closes, opens⟩ := except_bind_ok_iff.mp ran
    have chronicled := chronicled_switched (chronicled_switched (.turn .start (.mount "Page")) closes)
      opens
    cases all : past.1.views with
    | nil =>
      rw [all] at views
      cases views
    | cons v rest =>
      have first := congrArg List.head? views
      rw [all] at first
      have first := Option.some.inj first
      have name : v.name = "Page" := congrArg (·.1) first
      have number : v.number = 0 := congrArg (·.2.1) first
      refine ⟨past.1, past.2, v, chronicled, by rw [all]; exact mem_cons_self, name, views, ?_⟩
      rw [number]
      exact log

end ClosedPage

theorem ViewSession.reuse_iff_lastShown_closedPage :
    ∃ s log v recorded earlier, Chronicled (.ofOutput (ClosedPage.file.lower {})) s log ∧
      v ∈ s.views ∧ log v.number = recorded :: earlier ∧ v.activations = recorded ∧
      ∀ choice ∈ recorded,
        choice.activation = .reuse ↔ lastShown earlier choice.site = some choice.branchId := by
  obtain ⟨s, log, v, chronicled, mounted, name, _, past⟩ := ClosedPage.exists_reopened
  have known : ((Catalog.ofOutput (ClosedPage.file.lower {})).find? "Page").map
      (fun c => (c.name, (Stmt.conditionalsAll c.render.body).length)) = some ("Page", 2) := by
    decide +kernel
  obtain ⟨c, found, facts⟩ := Option.map_eq_some_iff.mp known
  obtain ⟨isPage, length⟩ := Prod.mk.inj facts
  obtain ⟨out, isOut, rfl⟩ := mem_map.mp (mem_reverse.mp (mem_of_find?_eq_some found))
  obtain ⟨d, declared, lowered⟩ := Module.exists_of_mem_lowered isOut
  have named : d.name = "Page" := by
    obtain ⟨_, _, _, _, _, _, _, _, rfl⟩ := ModuleScope.lowerComponent_ok_iff.mp lowered
    exact isPage
  have source : Stmt.areSource d.render.body = true ∧ Stmt.areLoopless d.render.body = true := by
    rcases mem_cons.mp declared with rfl | other
    · exact ⟨rfl, rfl⟩
    · cases mem_singleton.mp other
      exact absurd named (by decide)
  obtain ⟨_, last, law⟩ := ViewSession.reuse_iff_lastShown chronicled mounted lowered
    (name ▸ found) source.1 source.2 (by rw [length]; decide)
  rw [past] at last
  exact ⟨s, log, v, _, _, chronicled, mounted, past, last.symm,
    fun choice member => (law [] _ _ past choice member).1⟩

/-- The conditional around the note is reported as kept although the rendering before did not evaluate
    it; the note, which has the number 2, was made anew. -/
theorem ClosedPage.reuse_of_torn_down :
    ∃ s log v recorded earlier choice, ViewSession.Chronicled (.ofOutput (file.lower {})) s log ∧
      v ∈ s.views ∧ log v.number = recorded :: earlier ∧ choice ∈ recorded ∧
      choice.activation = .reuse ∧ ¬ EvaluatedBefore earlier choice.site ∧
      s.views.map (fun u => (u.name, u.number, u.renders)) = [("Page", 0, 3), ("Note", 2, 1)] := by
  obtain ⟨s, log, v, chronicled, mounted, _, views, past⟩ := exists_reopened
  refine ⟨s, log, v, _, _, ⟨1, some 0, .reuse⟩, chronicled, mounted, past, by simp, rfl, ?_, views⟩
  rintro ⟨recorded, last, choice, member, site⟩
  cases last
  cases mem_singleton.mp member
  cases site

end ReactiveView
