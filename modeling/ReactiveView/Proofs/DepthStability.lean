import ReactiveView.Proofs.RelatedExecutions

/-!
# Depth of rendering

Rendering is bounded by a depth.  The bound only cuts off: an outcome other than `tooDeep` is the
outcome at every greater depth.  So a rendering that ends at all has one outcome, and the bound can be
left out of what is said about it.

One execution is stable under another if it agrees with it wherever it is not cut off
(`ExecM.Refines`).  A body is refined when the rendering of children is.
-/

namespace ReactiveView

/-! ## Refinement -/

namespace ExecM

variable {α β : Type}

/-- The second computation does what the first does, unless the first is cut off. -/
def Refines (p p' : ExecM α) : Prop :=
  ∀ e, (p.run.run e).1 ≠ .error .tooDeep → p'.run.run e = p.run.run e

theorem Refines.refl (p : ExecM α) : Refines p p := fun _ _ => rfl

theorem Refines.bind {p p' : ExecM α} {f f' : α → ExecM β} (first : Refines p p')
    (second : ∀ a, Refines (f a) (f' a)) : Refines (p >>= f) (p' >>= f') := by
  intro e finished
  rw [run_bind] at finished
  cases ran : p.run.run e with
  | mk result e' =>
    rw [ran] at finished
    cases result with
    | ok a =>
      have same : p'.run.run e = (.ok a, e') := by rw [first e (by simp [ran]), ran]
      rw [run_bind_ok ran, run_bind_ok same, second a e' finished]
    | error fault =>
      have same : p'.run.run e = (.error fault, e') := by
        rw [first e (by simpa [ran] using finished), ran]
      rw [run_bind, run_bind, ran, same]

theorem isCongruence_refines : IsCongruence Refines :=
  ⟨Refines.bind, fun _ => .refl _, fun _ _ => .refl _⟩

end ExecM

/-- The second renderer does what the first does, unless the first is cut off. -/
def Renderer.Refines (render render' : Renderer) : Prop :=
  ∀ view provided w, (render view provided w).1 ≠ .error .tooDeep →
    render' view provided w = render view provided w

/-! ## Views -/

namespace Catalog

open ExecM (Refines)

variable {catalog : Catalog} {render render' : Renderer}

theorem renderChild_refines (extended : render.Refines render') (provided : Provided)
    (key component : String) (bindings : List BoundArgument) (scope : ViewScope) :
    Refines (catalog.renderChild render provided key component bindings scope)
      (catalog.renderChild render' provided key component bindings scope) := by
  unfold renderChild
  refine (Refines.refl _).bind fun child => ?_
  intro e finished
  rw [ExecM.run_get_bind] at finished
  rw [ExecM.run_get_bind, ExecM.run_get_bind]
  -- if the child were cut off, so would be the computation
  have same : render' child provided e.world = render child provided e.world := by
    apply extended
    intro cut
    apply finished
    cases rendered : render child provided e.world with
    | mk result rest =>
      rw [rendered] at cut
      cases cut
      rfl
  rw [same]

theorem renderWith_refines (extended : render.Refines render') :
    (catalog.renderWith render).Refines (catalog.renderWith render') := by
  intro view provided w finished
  cases found : catalog.find? view.name with
  | none => simp only [renderWith, found]
  | some c =>
    have bodies : Refines ((catalog.runner render view provided c).run c.render.body)
        ((catalog.runner render' view provided c).run c.render.body) := by
      refine BodyRunner.run_related (R := Refines) ExecM.isCongruence_refines ?_ ?_
      · exact ⟨rfl, rfl⟩
      · exact fun m _ bindings _ key locals => renderChild_refines extended _ _ _ _ _
    cases ran : ((catalog.runner render view provided c).run c.render.body).run.run
        (view.start w) with
    | mk result e =>
      have same : ((catalog.runner render' view provided c).run c.render.body).run.run
          (view.start w) = (result, e) := by
        refine (bodies (view.start w) ?_).trans ran
        intro cut
        apply finished
        rw [ran] at cut
        cases cut
        rw [renderWith_of_error found ran]
      cases result with
      | ok nodes => rw [renderWith_of_ok found ran, renderWith_of_ok found same]
      | error fault => rw [renderWith_of_error found ran, renderWith_of_error found same]

/-- What is rendered without being cut off is rendered alike at every greater depth. -/
theorem render_refines (catalog : Catalog) {depth depth' : Nat} (le : depth ≤ depth') :
    (catalog.render depth).Refines (catalog.render depth') := by
  induction depth generalizing depth' with
  -- nothing is rendered at depth zero
  | zero => exact fun view provided w finished => absurd rfl finished
  | succ depth ih =>
    obtain ⟨more, rfl⟩ := Nat.exists_eq_add_of_le' le
    exact renderWith_refines (ih (Nat.le_add_left depth more))

/-- A root that is mounted without being cut off is mounted alike at every greater depth. -/
theorem mountTo_refines (catalog : Catalog) {depth depth' : Nat} (le : depth ≤ depth')
    (name : String) (w : World) (finished : (catalog.mountTo depth name w).1 ≠ .error .tooDeep) :
    catalog.mountTo depth' name w = catalog.mountTo depth name w := by
  unfold mountTo at finished ⊢
  cases made : catalog.instantiate name {} w with
  | mk result w' =>
    cases result with
    | error fault => rfl
    | ok view =>
      rw [made] at finished
      have same : catalog.render depth' view [] w' = catalog.render depth view [] w' := by
        apply catalog.render_refines le
        intro cut
        apply finished
        cases rendered : catalog.render depth view [] w' with
        | mk result rest =>
          rw [rendered] at cut
          cases cut
          simp [rendered]
      simp only [same]

end Catalog

end ReactiveView
