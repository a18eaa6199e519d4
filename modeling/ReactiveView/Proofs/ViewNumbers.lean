import ReactiveView.Proofs.RepeatedRenderings

/-!
# Numbers of views

A view gets the next number when it is made, and no other view ever has it.  So two states of a tree
can be compared view by view: after a rendering every view in the tree has been rendered once, and it
is one of the views that were there or one that was made since (`Catalog.render_renews`).
-/

namespace ReactiveView

open List
open Reactive (CellId SubscriptionId Program Machine Frame)

/-! ## How many views were made -/

namespace Reactive.Machine

variable {σ τ κ : Type} {p : Program σ τ κ} {I : σ → Prop}

/-- What the parts of a program keep of its state, a run keeps. -/
theorem state_run (perform : ∀ t store s, I s → I (p.perform t store s).2.2)
    (settle : ∀ k store s, I s → I (p.settle k store s))
    (react : ∀ n value s, I s → I (p.react n value s).2) (n : Nat) (m : Machine σ τ κ)
    (holds : I m.state) : I (m.run p n).state := by
  have step {m m' : Machine σ τ κ} (taken : m.step p = some m') (holds : I m.state) :
      I m'.state := by
    unfold Machine.step at taken
    split at taken
    · cases taken
    · cases taken
      exact holds
    · cases taken
      exact perform _ _ _ holds
    · cases taken
      exact holds
    · cases taken
      exact holds
    · cases taken
      exact holds
    · cases taken
      exact settle _ _ _ holds
    · cases taken
      exact holds
    · cases taken
      exact react _ _ _ holds
    · cases taken
      exact holds
    · split at taken <;> cases taken <;> exact holds
    · split at taken <;> cases taken <;> exact holds
  induction n generalizing m with
  | zero => exact holds
  | succ n ih =>
    rw [run]
    split
    · exact holds
    next m' taken => exact ih m' (step taken holds)

end Reactive.Machine

/-- How many views were made so far, which is the number of the next one. -/
def World.views (w : World) : Nat := w.listeners.requests.length

namespace World

theorem views_set (w : World) (c : CellId) (value : Json) : (w.set c value).views = w.views := by
  refine Machine.state_run (p := listenerProgram)
    (I := fun l : Listeners => l.requests.length = w.views) ?_ ?_ ?_ _ _ rfl
  · exact fun _ _ _ => id
  · exact fun _ _ _ => id
  · exact fun n value l same => (l.length_requests_react n value).trans same

theorem views_refresh (w : World) (scope : ViewScope) (child : View)
    (bindings : List BoundArgument) : (w.refresh scope child bindings).views = w.views := by
  induction bindings generalizing w with
  | nil => rfl
  | cons b bindings ih =>
    unfold refresh
    split
    · dsimp only
      rw [ih]
      split
      · rfl
      · exact views_set _ _ _
    · exact ih w

theorem views_subscribeView (w : World) (view : Nat) (cells : List CellId) :
    (w.subscribeView view cells).2.views = w.views := by
  induction cells generalizing w with
  | nil => rfl
  | cons c cells ih => exact ih _

end World

theorem Site.views_cells (site : Site) (w : World) (fields provided : List (String × CellId))
    (slots : List (String × Option BindingKind × Option String)) :
    (site.cells w fields provided slots).2.views = w.views := by
  induction slots generalizing w fields provided with
  | nil => rfl
  | cons slot slots ih =>
    obtain ⟨field, binding, initializer⟩ := slot
    have made {c : CellId} {w' : World}
        (cell : site.cell w fields field binding initializer = .ok (c, w')) :
        w'.views = w.views := by
      unfold Site.cell at cell
      split at cell
      · cases cell
        rfl
      · split at cell <;> cases cell
        rfl
      · split at cell <;> cases cell
        rfl
      · cases cell
        rfl
    unfold Site.cells
    split
    · rfl
    next c w' cell =>
      have same := made cell
      split
      · exact (ih _ _ _).trans same
      · exact (ih _ _ _).trans same

namespace Catalog

variable {catalog : Catalog} {render : Renderer}

/-- A view that is made gets the next number and was not rendered yet. -/
theorem fresh_of_instantiate {name : String} {site : Site} {w w' : World} {v : View}
    (made : catalog.instantiate name site w = (.ok v, w')) :
    v = .fresh name v.fields v.provided w.views v.subscriptions ∧ w'.views = w.views + 1 := by
  unfold instantiate at made
  split at made
  · cases made
  next c _ =>
    have before := site.views_cells w [] [] (c.members.filterMap Member.slot?)
    split at made
    · cases made
    next fields provided w₁ cells =>
      rw [cells] at before
      cases made
      constructor
      · rw [← before]
        rfl
      · rw [World.views_subscribeView, ← before]
        exact length_append

theorem views_le_instantiate (catalog : Catalog) (name : String) (site : Site) (w : World) :
    w.views ≤ (catalog.instantiate name site w).2.views := by
  cases made : catalog.instantiate name site w with
  | mk outcome w' =>
    cases outcome with
    | ok v => exact (fresh_of_instantiate made).2 ▸ Nat.le_succ _
    | error fault =>
      unfold instantiate at made
      split at made
      · cases made
        exact Nat.le_refl _
      next c _ =>
        have before := site.views_cells w [] [] (c.members.filterMap Member.slot?)
        split at made
        next cells =>
          rw [cells] at before
          cases made
          exact Nat.le_of_eq before.symm
        · cases made

theorem views_le_renderWith (below : ∀ view provided w, w.views ≤ (render view provided w).2.2.views)
    (view : View) (provided : Provided) (w : World) :
    w.views ≤ (catalog.renderWith render view provided w).2.2.views := by
  cases found : catalog.find? view.name with
  | none =>
    simp only [renderWith, found]
    exact Nat.le_refl _
  | some c =>
    have keeps : ExecM.Keeps (fun e => w.views ≤ e.world.views)
        ((catalog.runner render view provided c).run c.render.body) := by
      refine BodyRunner.run_keeps (fun e e' same less => same.world ▸ less) ?_
      intro m _ bindings _ key locals e less
      refine Nat.le_trans less ?_
      change e.world.views ≤ ((catalog.renderChild render (view.provided ++ provided) key m.component
        bindings ⟨view.fields, locals⟩).run.run e).2.world.views
      rcases catalog.begins_or_fails (view.provided ++ provided) key m.component bindings
        ⟨view.fields, locals⟩ e with ⟨child, w₁, former, begins⟩ | ⟨missing, fault, w₁, failed⟩
      -- a child that is kept is not counted again
      · have begun : e.world.views ≤ w₁.views := by
          cases begins with
          | kept found named => exact Nat.le_of_eq (World.views_refresh _ _ _ _).symm
          | made missing made => exact (fresh_of_instantiate made).2 ▸ Nat.le_succ _
        have after := Nat.le_trans begun (below child (view.provided ++ provided) w₁)
        rw [run_renderChild begins]
        split
        next rendered =>
          rw [rendered] at after
          exact after
        next rendered =>
          rw [rendered] at after
          exact after
      · rw [run_renderChild_of_fails missing failed]
        have after := catalog.views_le_instantiate m.component
          ⟨bindings, ⟨view.fields, locals⟩, view.provided ++ provided⟩ e.world
        rw [failed] at after
        exact after
    have last := keeps (view.start w) (Nat.le_refl _)
    cases ran : ((catalog.runner render view provided c).run c.render.body).run.run
      (view.start w) with
    | mk outcome e =>
      rw [ran] at last
      cases outcome with
      | ok nodes =>
        rw [renderWith_of_ok found ran]
        exact last
      | error fault =>
        rw [renderWith_of_error found ran]
        exact last

theorem views_le_render (catalog : Catalog) (depth : Nat) (view : View) (provided : Provided)
    (w : World) : w.views ≤ (catalog.render depth view provided w).2.2.views := by
  induction depth generalizing view provided w with
  | zero => exact Nat.le_refl _
  | succ depth ih => exact views_le_renderWith ih view provided w

end Catalog

/-! ## The views of a tree -/

namespace View

mutual

/-- A view and the views below it. -/
def subviews : View → List View
  | .mk name fields provided number renders children history activations tree subscriptions =>
    .mk name fields provided number renders children history activations tree subscriptions ::
      subviewsAll children

/-- Views and the views below them. -/
def subviewsAll : List (String × View) → List View
  | [] => []
  | (_, v) :: rest => v.subviews ++ subviewsAll rest

end

theorem subviews_eq (v : View) : v.subviews = v :: subviewsAll v.keyedChildren := by
  cases v
  rw [subviews, keyedChildren]

theorem subviewsAll_eq (children : List (String × View)) :
    subviewsAll children = children.flatMap (·.2.subviews) := by
  induction children with
  | nil => rfl
  | cons entry children ih => rw [subviewsAll, ih, flatMap_cons]

theorem mem_subviews_iff {u v : View} :
    u ∈ v.subviews ↔ u = v ∨ ∃ entry ∈ v.keyedChildren, u ∈ entry.2.subviews := by
  rw [subviews_eq, subviewsAll_eq, mem_cons, mem_flatMap]

theorem subperm_subviewsAll {children children' : List (String × View)}
    (fewer : children.Subperm children') :
    (subviewsAll children).Subperm (subviewsAll children') := by
  obtain ⟨middle, perm, sublist⟩ := fewer
  rw [subviewsAll_eq, subviewsAll_eq]
  exact ⟨_, perm.flatMap fun _ _ => .refl _, sublist.flatMap _⟩

/-- The numbers of views are different and were given already. -/
structure AreNumbered (views : List View) (count : Nat) : Prop where
  distinct : (views.map (·.number)).Nodup
  given : ∀ v ∈ views, v.number < count

namespace AreNumbered

variable {views views' rest : List View} {count count' : Nat}

theorem of_subperm (numbered : AreNumbered views count) (fewer : views'.Subperm views)
    (less : count ≤ count') : AreNumbered views' count' where
  distinct := by
    obtain ⟨middle, perm, sublist⟩ := fewer
    exact (perm.map (·.number)).nodup (numbered.distinct.sublist (sublist.map _))
  given v member := Nat.lt_of_lt_of_le (numbered.given v (fewer.subset member)) less

theorem congr (numbered : AreNumbered views count)
    (same : views'.map (·.number) = views.map (·.number)) : AreNumbered views' count where
  distinct := same ▸ numbered.distinct
  given v' member := by
    have isNumber : v'.number ∈ views'.map (·.number) := mem_map_of_mem member
    rw [same] at isNumber
    obtain ⟨v, isView, number⟩ := mem_map.mp isNumber
    exact number ▸ numbered.given v isView

/-- Views that are exchanged for views with the same numbers or with new ones. -/
theorem replace (numbered : AreNumbered (views ++ rest) count) (others : AreNumbered views' count')
    (less : count ≤ count')
    (known : ∀ v' ∈ views', (∃ v ∈ views, v.number = v'.number) ∨ count ≤ v'.number) :
    AreNumbered (views' ++ rest) count' where
  distinct := by
    have distinct := numbered.distinct
    rw [map_append] at distinct ⊢
    obtain ⟨_, remain, apart⟩ := nodup_append'.mp distinct
    refine nodup_append'.mpr ⟨others.distinct, remain, ?_⟩
    intro n isNew isOther
    obtain ⟨v', member, rfl⟩ := mem_map.mp isNew
    obtain ⟨u, isRest, same⟩ := mem_map.mp isOther
    rcases known v' member with ⟨v, isOld, same'⟩ | above
    · exact apart (mem_map_of_mem isOld) (same'.trans same.symm ▸ mem_map_of_mem isRest)
    · have below := numbered.given u (mem_append_right _ isRest)
      omega
  given := by
    rw [forall_mem_append]
    refine ⟨others.given, fun v member => ?_⟩
    exact Nat.lt_of_lt_of_le (numbered.given v (mem_append_right _ member)) less

end AreNumbered

/-- One rendering of a view, as far as its choices go. -/
structure RendersTo (catalog : Catalog) (v v' : View) : Prop where
  same : v.SameInstance v'
  renders : v'.renders = v.renders + 1
  activations : v'.activations = (v.history.record v'.chosen).1
  history : v'.history = (v.history.record v'.chosen).2
  covers : ∃ c visits, catalog.find? v.name = some c ∧ Covers [] 0 c.render.body visits ∧
    v'.chosen = choices visits

/-- A view that was made when there were `count` views, or later, and is not rendered yet. -/
structure IsNew (count : Nat) (v : View) : Prop where
  number : count ≤ v.number
  renders : v.renders = 0
  history : v.history = {}

/-- A view that was rendered once since it was among some views, or since it was made. -/
def IsRenewed (catalog : Catalog) (count : Nat) (views : List View) (v' : View) : Prop :=
  ∃ v, v.RendersTo catalog v' ∧ (v ∈ views ∨ v.IsNew count)

theorem IsRenewed.mono {catalog : Catalog} {count count' : Nat} {views views' : List View} {v' : View}
    (renewed : v'.IsRenewed catalog count' views') (less : count ≤ count')
    (known : ∀ v ∈ views', v ∈ views ∨ v.IsNew count) : v'.IsRenewed catalog count views := by
  obtain ⟨v, renders, old | new⟩ := renewed
  · exact ⟨v, renders, known v old⟩
  · exact ⟨v, renders, .inr ⟨Nat.le_trans less new.number, new.renders, new.history⟩⟩

end View

/-! ## Renderings -/

namespace Catalog

open View (AreNumbered subviewsAll)

variable {catalog : Catalog} {render : Renderer} {view : View} {provided : Provided} {c : Component}

theorem new_of_instantiate {name : String} {site : Site} {w w' : World} {v : View}
    (made : catalog.instantiate name site w = (.ok v, w')) :
    v.subviews = [v] ∧ v.number = w.views ∧ v.IsNew w.views ∧ w'.views = w.views + 1 := by
  obtain ⟨fresh, more⟩ := fresh_of_instantiate made
  have number : v.number = w.views := by rw [fresh]; rfl
  refine ⟨?_, number, ⟨Nat.le_of_eq number.symm, by rw [fresh]; rfl, by rw [fresh]; rfl⟩, more⟩
  rw [View.subviews_eq, fresh]
  rfl

/-- A renderer renders every view of the resulting tree once. -/
def Renews (catalog : Catalog) (render : Renderer) : Prop :=
  ∀ view provided w view' w', render view provided w = (.ok (), view', w') →
    w.views ≤ w'.views ∧
    (∀ v' ∈ view'.subviews, v'.IsRenewed catalog w.views view.subviews) ∧
    (AreNumbered view.subviews w.views → AreNumbered view'.subviews w'.views)

/-- The views of an execution: those that are still to be met are old ones, and those that were met
    are rendered. -/
structure Renewing (catalog : Catalog) (view : View) (count : Nat) (e : Execution) : Prop where
  grown : count ≤ e.world.views
  former : ∀ v ∈ subviewsAll e.former, v ∈ subviewsAll view.keyedChildren
  children : ∀ v' ∈ subviewsAll e.children,
    v'.IsRenewed catalog count (subviewsAll view.keyedChildren)
  numbered : AreNumbered view.subviews count →
    AreNumbered (subviewsAll (e.former ++ e.children) ++ [view]) e.world.views

theorem Renewing.child (renews : catalog.Renews render) {count : Nat} {e e' : Execution}
    (renewing : catalog.Renewing view count e) {key component : String}
    {bindings : List BoundArgument} {scope : ViewScope} {nodes : List ViewNode}
    (ran : (catalog.renderChild render provided key component bindings scope).run.run e =
      (.ok nodes, e')) : catalog.Renewing view count e' := by
  obtain ⟨child, w, former, child', w', begins, rendered, _, rfl⟩ := renderChild_ok_iff.mp ran
  obtain ⟨grown, renewed, numbered⟩ := renews _ _ _ _ _ rendered
  have inserted : (View.insertChild key child' e.children).1.Subperm
      ((key, child') :: e.children) :=
    (sublist_append_left _ _).subperm.trans (View.perm_insertChild key child' _).subperm
  -- the child is an old view that is still to be met, or a new one
  have begun : e.world.views ≤ w.views ∧ (∀ v ∈ subviewsAll former, v ∈ subviewsAll e.former) ∧
      (∀ v ∈ child.subviews, v ∈ subviewsAll e.former ∨ v.IsNew e.world.views) ∧
      (AreNumbered (subviewsAll (e.former ++ e.children) ++ [view]) e.world.views →
        AreNumbered (child.subviews ++ (subviewsAll (former ++ e.children) ++ [view])) w.views) := by
    cases begins with
    | kept found named =>
      have fewer := subperm_of_lookup found
      have all := View.subperm_subviewsAll fewer
      rw [World.views_refresh]
      refine ⟨Nat.le_refl _, fun v member => all.subset (mem_append_right _ member),
        fun v member => .inl (all.subset (mem_append_left _ member)), fun numbered => ?_⟩
      rw [← append_assoc]
      refine numbered.of_subperm ((subperm_append_right _).mpr ?_) (Nat.le_refl _)
      exact View.subperm_subviewsAll ((subperm_append_right _).mpr fewer)
    | made missing made =>
      obtain ⟨alone, number, new, more⟩ := new_of_instantiate made
      rw [alone, more]
      refine ⟨Nat.le_succ _, fun v member => member, ?_, fun numbered => ⟨?_, ?_⟩⟩
      · intro v member
        cases mem_singleton.mp member
        exact .inr new
      · refine nodup_cons.mpr ⟨fun again => ?_, numbered.distinct⟩
        obtain ⟨v, member, same⟩ := mem_map.mp again
        have given := numbered.given v member
        have same : v.number = child.number := same
        omega
      · refine forall_mem_cons.mpr ⟨number ▸ Nat.lt_succ_self _, fun v member => ?_⟩
        exact Nat.lt_succ_of_lt (numbered.given v member)
  obtain ⟨started, fewer, known, joined⟩ := begun
  constructor
  case grown => exact Nat.le_trans renewing.grown (Nat.le_trans started grown)
  case former => exact fun v member => renewing.former v (fewer v member)
  case children =>
    intro v' member
    rcases mem_append.mp ((View.subperm_subviewsAll inserted).subset member) with here | other
    · refine (renewed v' here).mono (Nat.le_trans renewing.grown started) fun v isOld => ?_
      rcases known v isOld with old | new
      · exact .inl (renewing.former v old)
      · exact .inr ⟨Nat.le_trans renewing.grown new.number, new.renders, new.history⟩
    · exact renewing.children v' other
  case numbered =>
    intro start
    have joined := joined (renewing.numbered start)
    have own := numbered (joined.of_subperm (sublist_append_left _ _).subperm (Nat.le_refl _))
    have replaced := joined.replace own grown fun v' member => by
      obtain ⟨v, renders, old | new⟩ := renewed v' member
      · exact .inl ⟨v, old, renders.same.number.symm⟩
      · exact .inr (renders.same.number ▸ new.number)
    rw [← append_assoc] at replaced
    refine replaced.of_subperm ((subperm_append_right _).mpr ?_) (Nat.le_refl _)
    change (subviewsAll (former ++ (View.insertChild key child' e.children).1)).Subperm
      (subviewsAll ((key, child') :: (former ++ e.children)))
    refine View.subperm_subviewsAll (.trans ?_ perm_middle.subperm)
    exact (subperm_append_left former).mpr inserted

theorem Renewing.follows (renews : catalog.Renews render) {count : Nat} {e last : Execution}
    {visits : List RenderVisit}
    (follows : (catalog.runner render view provided c).Follows e visits last)
    (renewing : catalog.Renewing view count e) : catalog.Renewing view count last := by
  induction follows with
  | nil => exact renewing
  | child role ran _ ih => exact ih (renewing.child renews ran)
  | choice recorded _ ih =>
    cases recorded
    exact ih ⟨renewing.grown, renewing.former, renewing.children, renewing.numbered⟩
  | loop _ ih => exact ih renewing

theorem renderWith_renews (renews : catalog.Renews render) :
    catalog.Renews (catalog.renderWith render) := by
  intro view provided w view' w' rendered
  obtain ⟨c, nodes, e, found, ran, rfl, rfl⟩ := run_of_renderWith rendered
  obtain ⟨follows, covers⟩ := BodyRunner.visits_spec ran
  generalize (catalog.runner render view provided c).visits _ _ = visits at follows covers
  have start : catalog.Renewing view w.views (view.start w) := by
    refine ⟨Nat.le_refl _, fun v => id, fun v' member => absurd member not_mem_nil, ?_⟩
    intro numbered
    rw [View.subviews_eq] at numbered
    change AreNumbered (subviewsAll (view.keyedChildren ++ []) ++ [view]) w.views
    rw [append_nil]
    exact numbered.of_subperm (perm_append_singleton _ _).subperm (Nat.le_refl _)
  have renewing := start.follows renews follows
  obtain ⟨recorded, history⟩ := record_of_follows follows
  -- nothing was recorded when the execution began
  have activations : e.activations = (view.history.record (choices visits)).1 := recorded
  have chosen : (view.rendered e.children e.history e.activations
      (.mk c.name [] [] none nodes)).chosen = choices visits := by
    change e.activations.map _ = _
    rw [activations]
    exact BranchHistory.map_record _ _
  refine ⟨renewing.grown, ?_, fun numbered => ?_⟩
  · rw [View.subviews_eq, forall_mem_cons]
    constructor
    · refine ⟨view, ⟨⟨rfl, rfl, rfl, rfl, rfl⟩, rfl, ?_, ?_, c, visits, found, covers, chosen⟩, ?_⟩
      · rw [chosen]
        exact activations
      · rw [chosen]
        exact history
      · rw [View.subviews_eq]
        exact .inl mem_cons_self
    · intro v' member
      refine (renewing.children v' member).mono (Nat.le_refl _) fun v isOld => .inl ?_
      rw [View.subviews_eq]
      exact mem_cons_of_mem _ isOld
  · have met : (view :: subviewsAll e.children).Subperm
        (subviewsAll (e.former ++ e.children) ++ [view]) := by
      refine (perm_append_singleton _ _).symm.subperm.trans ?_
      refine (subperm_append_right _).mpr (View.subperm_subviewsAll ?_)
      exact (sublist_append_right _ _).subperm
    have last := (renewing.numbered numbered).of_subperm met (Nat.le_refl _)
    rw [View.subviews_eq]
    exact ⟨last.distinct, forall_mem_cons.mpr (forall_mem_cons.mp last.given)⟩

theorem render_renews (catalog : Catalog) (depth : Nat) : catalog.Renews (catalog.render depth) := by
  induction depth with
  | zero =>
    intro _ _ _ _ _ rendered
    cases rendered
  | succ depth ih => exact renderWith_renews ih

theorem mountTo_renews (catalog : Catalog) (depth : Nat) (name : String) (w : World) :
    w.views ≤ (catalog.mountTo depth name w).2.views ∧
      ∀ root, (catalog.mountTo depth name w).1 = .ok root →
        AreNumbered root.subviews (catalog.mountTo depth name w).2.views ∧
        ∀ v' ∈ root.subviews, v'.IsRenewed catalog w.views [] := by
  have made := catalog.views_le_instantiate name {} w
  unfold mountTo
  split
  next instantiated =>
    rw [instantiated] at made
    refine ⟨made, fun root same => ?_⟩
    cases same
  next view w₁ instantiated =>
    rw [instantiated] at made
    obtain ⟨alone, number, new, more⟩ := new_of_instantiate instantiated
    have after := catalog.views_le_render depth view [] w₁
    split
    next view' w₂ rendered =>
      rw [rendered] at after
      refine ⟨Nat.le_trans made after, fun root same => ?_⟩
      cases same
      obtain ⟨_, renewed, numbered⟩ := catalog.render_renews depth _ _ _ _ _ rendered
      rw [alone] at renewed numbered
      -- a new view is its own only subview
      refine ⟨numbered ⟨nodup_singleton _, fun v member => ?_⟩, fun v' member => ?_⟩
      · cases mem_singleton.mp member
        omega
      · refine (renewed v' member).mono made fun v isView => .inr ?_
        cases mem_singleton.mp isView
        exact new
    next rendered =>
      rw [rendered] at after
      refine ⟨Nat.le_trans made after, fun root same => ?_⟩
      cases same

end Catalog

end ReactiveView
