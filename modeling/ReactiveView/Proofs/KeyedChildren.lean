import Mathlib.Data.List.Nodup
import Mathlib.Data.List.Perm.Basic
import Mathlib.Data.List.Perm.Subperm
import ReactiveView.View.Instance

/-!
# Children under keys

The children of a view are sorted by their keys, each key once.  Putting a child under its key only
takes away the child that had the key.
-/

namespace ReactiveView

open List

theorem lookup_of_mem {α : Type} {entries : List (String × α)} {key : String} {a : α}
    (distinct : (entries.map (·.1)).Nodup) (member : (key, a) ∈ entries) :
    entries.lookup key = some a := by
  induction entries with
  | nil => cases member
  | cons entry rest ih =>
    rw [map_cons, nodup_cons] at distinct
    rcases mem_cons.mp member with rfl | later
    · exact lookup_cons_self
    · have different : key ≠ entry.1 :=
        fun same => distinct.1 (same ▸ mem_map_of_mem later)
      rw [List.lookup_cons, beq_false_of_ne different]
      exact ih distinct.2 later

theorem mem_of_lookup {κ α : Type} [BEq κ] [LawfulBEq κ] {entries : List (κ × α)} {key : κ} {a : α}
    (found : entries.lookup key = some a) : (key, a) ∈ entries := by
  obtain ⟨before, after, rfl, _⟩ := lookup_eq_some_iff.mp found
  exact mem_append_cons_self

/-- The entry that is found for a key is taken out with the others of the key. -/
theorem subperm_of_lookup {α : Type} {entries : List (String × α)} {key : String} {a : α}
    (found : entries.lookup key = some a) :
    ((key, a) :: entries.filter (·.1 ≠ key)).Subperm entries := by
  obtain ⟨before, after, rfl, _⟩ := lookup_eq_some_iff.mp found
  have rest : (before ++ (key, a) :: after).filter (·.1 ≠ key) =
      (before ++ after).filter (·.1 ≠ key) := by simp
  rw [rest]
  exact (filter_sublist.cons_cons _).subperm.trans perm_middle.symm.subperm

/-- Taking out the entries of one key leaves those of the others. -/
theorem lookup_filter_ne {κ α : Type} [DecidableEq κ] {entries : List (κ × α)} {key other : κ}
    (different : other ≠ key) :
    (entries.filter (·.1 ≠ key)).lookup other = entries.lookup other := by
  induction entries with
  | nil => rfl
  | cons entry rest ih =>
    obtain ⟨k, a⟩ := entry
    by_cases same : k = key
    · subst same
      rw [filter_cons_of_neg (by simp), ih, List.lookup_cons, beq_false_of_ne different]
    · rw [filter_cons_of_pos (by simpa using same), List.lookup_cons, List.lookup_cons, ih]

namespace View

open Reactive (CellId SubscriptionId)

variable {key : String} {child : View} {children : List (String × View)}

/-- Putting a child under its key adds it and takes out the child that had the key. -/
theorem perm_insertChild (key : String) (child : View) (children : List (String × View)) :
    ((insertChild key child children).1 ++
      (insertChild key child children).2.toList.map (key, ·)).Perm ((key, child) :: children) := by
  induction children with
  | nil => exact .refl _
  | cons entry rest ih =>
    obtain ⟨k, c⟩ := entry
    unfold insertChild
    split
    · simp
    · split
      next same =>
        subst same
        simp only [Option.toList_some, map_cons, map_nil, cons_append]
        exact .cons _ perm_append_comm
      · exact (List.Perm.cons (k, c) ih).trans (.swap _ _ _)

/-- The keys are in order. -/
def AreSorted (children : List (String × View)) : Prop := (children.map (·.1)).Pairwise (· < ·)

theorem fst_of_mem_insertChild {entry : String × View}
    (member : entry ∈ (insertChild key child children).1) :
    entry.1 = key ∨ entry.1 ∈ children.map (·.1) := by
  have member' : entry ∈ (key, child) :: children :=
    (perm_insertChild key child children).subset (mem_append_left _ member)
  rcases mem_cons.mp member' with rfl | old
  · exact .inl rfl
  · exact .inr (mem_map_of_mem old)

theorem AreSorted.insertChild (sorted : AreSorted children) (key : String) (child : View) :
    AreSorted (insertChild key child children).1 := by
  induction children with
  | nil => exact pairwise_singleton _ _
  | cons entry rest ih =>
    obtain ⟨k, c⟩ := entry
    obtain ⟨least, rest'⟩ := pairwise_cons.mp sorted
    unfold View.insertChild
    split
    next before =>
      refine pairwise_cons.mpr ⟨?_, sorted⟩
      intro other member
      rcases mem_cons.mp member with rfl | later
      · exact before
      · exact String.lt_trans before (least other later)
    next notBefore =>
      split
      next same =>
        subst same
        exact sorted
      next other =>
        have after : k < key := Std.lt_of_le_of_ne (String.not_lt.mp notBefore) (Ne.symm other)
        refine pairwise_cons.mpr ⟨?_, ih rest'⟩
        intro name member
        obtain ⟨entry, isEntry, rfl⟩ := mem_map.mp member
        rcases fst_of_mem_insertChild isEntry with same | old
        · exact same ▸ after
        · exact least _ old

theorem nodup_of_ascending {keys : List String} (ascending : keys.Pairwise (· < ·)) : keys.Nodup := by
  refine List.Pairwise.imp ?_ ascending
  intro a b before same
  exact String.lt_irrefl b (same ▸ before)

theorem AreSorted.nodup (sorted : AreSorted children) : (children.map (·.1)).Nodup :=
  nodup_of_ascending sorted

/-- A key that is new takes out no child. -/
theorem replaced_of_not_mem (new : key ∉ children.map (·.1)) :
    (insertChild key child children).2 = none := by
  induction children with
  | nil => rfl
  | cons entry rest ih =>
    obtain ⟨k, c⟩ := entry
    rw [map_cons, mem_cons, not_or] at new
    unfold insertChild
    split
    · rfl
    · rw [if_neg new.1]
      exact ih new.2

theorem insertChild_of_not_mem (new : key ∉ children.map (·.1)) :
    (insertChild key child children).1.Perm ((key, child) :: children) := by
  have perm := perm_insertChild key child children
  rwa [replaced_of_not_mem new, Option.toList_none, map_nil, append_nil] at perm

theorem mem_insertChild_self (key : String) (child : View) (children : List (String × View)) :
    (key, child) ∈ (insertChild key child children).1 := by
  induction children with
  | nil => exact mem_cons_self
  | cons first rest ih =>
    unfold insertChild
    split
    · exact mem_cons_self
    · split
      · exact mem_cons_self
      · exact mem_cons_of_mem _ ih

theorem mem_insertChild_of_ne {entry : String × View} (member : entry ∈ children)
    (other : entry.1 ≠ key) : entry ∈ (insertChild key child children).1 := by
  have among := (perm_insertChild key child children).symm.subset (mem_cons_of_mem _ member)
  refine (mem_append.mp among).resolve_right fun replaced => other ?_
  obtain ⟨_, _, rfl⟩ := mem_map.mp replaced
  rfl

theorem keys_of_forall₂ {R : View → View → Prop} {children' : List (String × View)}
    (each : List.Forall₂ (fun entry entry' => entry.1 = entry'.1 ∧ R entry.2 entry'.2) children
      children') : children'.map (·.1) = children.map (·.1) := by
  induction each with
  | nil => rfl
  | cons related _ ih => rw [map_cons, map_cons, ih, related.1]

/-- Where a child is put depends on the keys only. -/
theorem forall₂_insertChild {R : View → View → Prop} {child' : View}
    {children' : List (String × View)}
    (each : List.Forall₂ (fun entry entry' => entry.1 = entry'.1 ∧ R entry.2 entry'.2) children
      children') (related : R child child') :
    List.Forall₂ (fun entry entry' => entry.1 = entry'.1 ∧ R entry.2 entry'.2)
      (insertChild key child children).1 (insertChild key child' children').1 := by
  induction each with
  | nil => exact .cons ⟨rfl, related⟩ .nil
  | @cons entry entry' rest rest' same after ih =>
    obtain ⟨k, c⟩ := entry
    obtain ⟨k', c'⟩ := entry'
    obtain ⟨rfl, _⟩ := id same
    unfold insertChild
    split
    · exact .cons ⟨rfl, related⟩ (.cons same after)
    · split
      · exact .cons ⟨rfl, related⟩ after
      · exact .cons same ih

/-! ## What children own -/

theorem ownedCellsAll_eq (children : List (String × View)) :
    ownedCellsAll children = children.flatMap (·.2.ownedCells) := by
  induction children with
  | nil => rfl
  | cons entry rest ih => rw [ownedCellsAll, ih, flatMap_cons]

theorem ownedSubscriptionsAll_eq (children : List (String × View)) :
    ownedSubscriptionsAll children = children.flatMap (·.2.ownedSubscriptions) := by
  induction children with
  | nil => rfl
  | cons entry rest ih => rw [ownedSubscriptionsAll, ih, flatMap_cons]

theorem ownedCells_eq (v : View) :
    v.ownedCells = v.fields.map (·.2) ++ v.provided.map (·.2) ++ ownedCellsAll v.keyedChildren := by
  obtain ⟨⟩ := v
  rw [ownedCells]
  rfl

theorem ownedSubscriptions_eq (v : View) :
    v.ownedSubscriptions = v.subscriptions ++ ownedSubscriptionsAll v.keyedChildren := by
  obtain ⟨⟩ := v
  rw [ownedSubscriptions]
  rfl

end View

end ReactiveView
