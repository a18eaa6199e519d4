import ReactiveView.Proofs.KeyedChildren
import ReactiveView.Proofs.ViewOwnership
import ReactiveView.View.Render

/-!
# Values that are spared

Rendering writes to cells that begin a group, so it is known beforehand which values can change
(`World.Spares`).  If of some cells each is in a group that one of them begins (`World.IsBased`) then
their values stay as long as none of them is written.
-/

namespace ReactiveView

open Reactive (CellId SubscriptionId Store)

/-! ## First cells of groups -/

namespace Reactive.Store

variable {s s' : Store} {c : CellId}

/-- A cell is the first of its group. -/
def IsFirst (s : Store) (c : CellId) : Prop :=
  ∀ d < s.cells.length, s.groupOf d = s.groupOf c → c ≤ d

theorem IsFirst.grows (first : s.IsFirst c) (known : c < s.cells.length) (grows : s.Grows s') :
    s'.IsFirst c := by
  intro d inside same
  by_cases old : d < s.cells.length
  · rw [grows.group d old, grows.group c known] at same
    exact first d old same
  · exact Nat.le_of_lt (Nat.lt_of_lt_of_le known (Nat.le_of_not_lt old))

theorem IsFirst.of_grows (first : s'.IsFirst c) (known : c < s.cells.length) (grows : s.Grows s') :
    s.IsFirst c := by
  intro d inside same
  refine first d (Nat.lt_of_lt_of_le inside grows.size) ?_
  rw [grows.group d inside, grows.group c known, same]

end Reactive.Store

namespace World

variable {w w' w'' : World} {written written' cells cells' : List CellId} {c : CellId}

/-- Cells that were there keep their values, but for those in groups that the given cells begin. -/
def Spares (w : World) (written : List CellId) (w' : World) : Prop :=
  ∀ d < w.store.cells.length,
    (∀ c ∈ written, w.store.IsFirst c → w.store.groupOf d ≠ w.store.groupOf c) →
    w'.store.value d = w.store.value d

namespace Spares

theorem refl (w : World) (written : List CellId) : w.Spares written w := fun _ _ _ => rfl

theorem mono (spares : w.Spares written w') (more : ∀ c ∈ written, c ∈ written') :
    w.Spares written' w' :=
  fun d inside apart => spares d inside fun c member => apart c (more c member)

/-- What is written later counts only if it was there before. -/
theorem trans (first : w.Spares written w') (grows : w.Grows w') (second : w'.Spares written' w'')
    (old : ∀ c ∈ written', c ∈ written ∨ w.store.cells.length ≤ c) : w.Spares written w'' := by
  intro d inside apart
  refine (second d (Nat.lt_of_lt_of_le inside grows.store.size) ?_).trans (first d inside apart)
  intro c member isFirst same
  have before : c < w.store.cells.length :=
    Nat.lt_of_le_of_lt (isFirst d (Nat.lt_of_lt_of_le inside grows.store.size) same) inside
  have isOld : c ∈ written := (old c member).resolve_right (Nat.not_le_of_lt before)
  refine apart c isOld (isFirst.of_grows before grows.store) ?_
  rw [← grows.store.group d inside, same, grows.store.group c before]

theorem trans_nothing (first : w.Spares written w') (grows : w.Grows w')
    (second : w'.Spares [] w'') : w.Spares written w'' :=
  first.trans grows second nofun

end Spares

theorem Spares.of_fades (fades : w.store.Fades w'.store) : w.Spares [] w' := fun d _ _ => fades.value d

theorem spares_releaseAll (w : World) (given : List CellId) : w.Spares [] (w.releaseAll given) :=
  .of_fades (.foldl Store.Fades.release _ _)

theorem value_dropAll (w : World) (views : List (String × View)) (c : CellId) :
    (w.dropAll views).store.value c = w.store.value c :=
  ((Store.Fades.foldl Store.Fades.release _ _).value c).trans
    ((Store.Fades.foldl Store.Fades.unsubscribe _ _).value c)

theorem spares_dropAll (w : World) (views : List (String × View)) : w.Spares [] (w.dropAll views) :=
  fun d _ _ => w.value_dropAll views d

theorem spares_create (w : World) (kind : CellKind) (value : Json) :
    w.Spares [] (w.create kind value).2 := by
  intro d inside _
  have added : (w.store.create kind value).cells = w.store.cells ++ [_] := rfl
  simp only [World.create, World.onStore, Store.value,
    Store.getElem?_cells_old added (Nat.ne_of_lt inside)]

theorem spares_link (w : World) (source : CellId) (kind : CellKind) :
    w.Spares [] (w.link source kind).2 := by
  intro d inside _
  have added : (w.store.link source kind).cells = w.store.cells ++ [_] := rfl
  simp only [World.link, World.onStore, Store.value,
    Store.getElem?_cells_old added (Nat.ne_of_lt inside)]

theorem Quiet.spares_set (quiet : w.Quiet) (live : w.store.isLive c = true)
    (first : w.store.IsFirst c) (value : Json) : w.Spares [c] (w.set c value) := by
  intro d _ apart
  have other := apart c List.mem_cons_self first
  rw [quiet.set_eq live, Store.value_assign, if_neg]
  rintro ⟨member, _⟩
  exact other (quiet.consistent.mem_liveMembers.mp member).2

/-! ## Cells with the first cells of their groups -/

/-- Every one of the cells is in a group that one of them begins. -/
def IsBased (w : World) (cells : List CellId) : Prop :=
  ∀ d ∈ cells, d < w.store.cells.length ∧
    ∃ r ∈ cells, w.store.IsFirst r ∧ w.store.groupOf d = w.store.groupOf r

namespace IsBased

theorem nil (w : World) : w.IsBased [] := nofun

theorem grows (based : w.IsBased cells) (grows : w.Grows w') : w'.IsBased cells := by
  intro d member
  obtain ⟨known, r, isBase, first, same⟩ := based d member
  have known' := (based r isBase).1
  refine ⟨Nat.lt_of_lt_of_le known grows.store.size, r, isBase, first.grows known' grows.store, ?_⟩
  rw [grows.store.group d known, grows.store.group r known', same]

/-- Cells stay where they are if none of them is written. -/
theorem value_eq (based : w.IsBased cells) (spares : w.Spares written w')
    (apart : ∀ c ∈ written, c ∉ cells) {d : CellId} (member : d ∈ cells) :
    w'.store.value d = w.store.value d := by
  obtain ⟨known, r, isBase, first, same⟩ := based d member
  refine spares d known fun c isWritten isFirst same' => ?_
  -- a group has one first cell
  have inside : c < w.store.cells.length := Nat.lt_of_le_of_lt (isFirst d known same') known
  have before := first c inside (same'.symm.trans same)
  have after := isFirst r (based r isBase).1 (same.symm.trans same')
  exact apart c isWritten (Nat.le_antisymm after before ▸ isBase)

end IsBased

end World

/-! ## Code -/

namespace ViewScope

/-- The value of code depends on the values of the fields in sight only. -/
theorem eval_congr {scope : ViewScope} {w w' : World}
    (same : ∀ entry ∈ scope.fields, w'.store.value entry.2 = w.store.value entry.2)
    (code : String) : scope.eval w' code = scope.eval w code := by
  have names : scope.names w' = scope.names w := by
    unfold names
    congr 1
    funext name
    cases found : scope.fields.lookup name with
    | none => rfl
    | some c => exact congrArg some (same (name, c) (mem_of_lookup found))
  rw [eval, eval, names]

end ViewScope

end ReactiveView
