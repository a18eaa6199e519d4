import Mathlib.Data.List.Nodup
import ReactiveView.Proofs.Visits

/-!
# Keys of children

A child is kept under a key, the text of the address where its marker stands: the arms and items
around it, its position in its block, and its component.  The address can be read off the key, so
the keys of different addresses are different.
-/

namespace ReactiveView

open List

/-! ## Addresses -/

/-- An arm or an item that a marker lies in. -/
inductive Turn where
  | arm (site branchId : UInt32)
  | item (index : Nat)
deriving DecidableEq, Repr

/-- The path element of an arm or an item. -/
def Turn.text : Turn → String
  | .arm site branchId => armStep site branchId
  | .item index => itemStep index

/-- Where the marker of a child stands. -/
structure Address where
  /-- The arms and items around the marker, outermost first. -/
  turns : List Turn
  /-- The position of the marker in its block. -/
  index : Nat
  component : String
deriving DecidableEq, Repr

namespace Address

/-- The key of the child for a marker at an address below a path. -/
def keyBelow (path : List String) (a : Address) : String :=
  childKey (path ++ a.turns.map Turn.text) a.index a.component

/-- The address of a marker in a further arm or item. -/
def inside (turn : Turn) (a : Address) : Address := { a with turns := turn :: a.turns }

theorem inside_injective (turn : Turn) : Function.Injective (inside turn) := by
  rintro ⟨turns, index, component⟩ ⟨turns', index', component'⟩ same
  simpa [inside] using same

theorem keyBelow_inside (path : List String) (turn : Turn) (a : Address) :
    (a.inside turn).keyBelow path = a.keyBelow (path ++ [turn.text]) := by
  simp [keyBelow, inside]

end Address

/-! ## Addresses can be read off keys -/

/-- The parts before and after the first separator are determined. -/
theorem append_cons_inj_of_first {α : Type} {x : α} {a a' b b' : List α} (isFirst : x ∉ a)
    (isFirst' : x ∉ a') (same : a ++ x :: b = a' ++ x :: b') : a = a' ∧ b = b' := by
  induction a generalizing a' with
  | nil =>
    cases a' with
    | nil => exact ⟨rfl, (List.cons.inj same).2⟩
    | cons y a' =>
      obtain ⟨rfl, _⟩ := List.cons.inj same
      exact absurd mem_cons_self isFirst'
  | cons y a ih =>
    cases a' with
    | nil =>
      obtain ⟨rfl, _⟩ := List.cons.inj same
      exact absurd mem_cons_self isFirst
    | cons y' a' =>
      obtain ⟨rfl, rest⟩ := List.cons.inj same
      obtain ⟨rfl, rfl⟩ := ih (fun member => isFirst (.tail _ member))
        (fun member => isFirst' (.tail _ member)) rest
      exact ⟨rfl, rfl⟩

/-- The parts before and after the last separator are determined. -/
theorem append_cons_inj_of_last {α : Type} {x : α} {a a' b b' : List α} (isLast : x ∉ b)
    (isLast' : x ∉ b') (same : a ++ x :: b = a' ++ x :: b') : a = a' ∧ b = b' := by
  have reversed : b.reverse ++ x :: a.reverse = b'.reverse ++ x :: a'.reverse := by
    simpa using congrArg List.reverse same
  obtain ⟨after, before⟩ := append_cons_inj_of_first (by simpa using isLast) (by simpa using isLast')
    reversed
  exact ⟨reverse_injective before, reverse_injective after⟩

theorem mem_intercalate {α : Type} {x y : α} {parts : List (List α)}
    (member : y ∈ [x].intercalate parts) : y = x ∨ ∃ part ∈ parts, y ∈ part := by
  induction parts with
  | nil => cases member
  | cons part parts ih =>
    cases parts with
    | nil =>
      rw [intercalate_singleton] at member
      exact .inr ⟨part, mem_cons_self, member⟩
    | cons next parts =>
      rw [intercalate_cons_cons, append_assoc, mem_append, mem_append,
        mem_singleton] at member
      rcases member with here | isSeparator | later
      · exact .inr ⟨part, mem_cons_self, here⟩
      · exact .inl isSeparator
      · rcases ih later with isSeparator | ⟨part, isPart, inPart⟩
        · exact .inl isSeparator
        · exact .inr ⟨part, .tail _ isPart, inPart⟩

/-- Parts that are not empty and do not contain the separator are determined. -/
theorem intercalate_inj {α : Type} [BEq α] [LawfulBEq α] {x : α} {parts parts' : List (List α)}
    (plain : ∀ part ∈ parts, part ≠ [] ∧ x ∉ part)
    (plain' : ∀ part ∈ parts', part ≠ [] ∧ x ∉ part)
    (same : [x].intercalate parts = [x].intercalate parts') : parts = parts' := by
  have filled : ∀ (part : List α) (rest : List (List α)), part ≠ [] →
      [x].intercalate (part :: rest) ≠ [] := by
    intro part rest notEmpty isEmpty
    cases rest with
    | nil => exact notEmpty (by simpa using isEmpty)
    | cons next rest => simp [intercalate_cons_cons] at isEmpty
  cases parts with
  | nil =>
    cases parts' with
    | nil => rfl
    | cons part rest => exact absurd same.symm (filled part rest (plain' _ mem_cons_self).1)
  | cons part rest =>
    cases parts' with
    | nil => exact absurd same (filled part rest (plain _ mem_cons_self).1)
    | cons part' rest' =>
      rw [← splitOn_intercalate x (fun part member => (plain part member).2) (by simp), same,
        splitOn_intercalate x (fun part member => (plain' part member).2) (by simp)]

theorem toDigits_injective : Function.Injective (Nat.toDigits 10) := by
  intro m n same
  calc
    m = Nat.ofDigitChars 10 (Nat.toDigits 10 m) 0 := Nat.ofDigitChars_ten_toDigits.symm
    _ = Nat.ofDigitChars 10 (Nat.toDigits 10 n) 0 := by rw [same]
    _ = n := Nat.ofDigitChars_ten_toDigits

theorem not_mem_toDigits {c : Char} (other : c.isDigit = false) (n : Nat) :
    c ∉ Nat.toDigits 10 n := by
  intro member
  have isDigit := Nat.isDigit_of_mem_toDigits (by decide) (by decide) member
  exact Bool.false_ne_true (other.symm.trans isDigit)

namespace Turn

theorem toList_text_arm (site branchId : UInt32) :
    (Turn.arm site branchId).text.toList =
      's' :: (Nat.toDigits 10 site.toNat ++ 'b' :: Nat.toDigits 10 branchId.toNat) := by
  simp [text, armStep, toString, Nat.toList_repr]

theorem toList_text_item (index : Nat) :
    (Turn.item index).text.toList = 'i' :: Nat.toDigits 10 index := by
  simp [text, itemStep, toString, Nat.toList_repr]

theorem text_injective : Function.Injective text := by
  intro turn turn' same
  have same := congrArg String.toList same
  cases turn with
  | arm site branchId =>
    cases turn' with
    | arm site' branchId' =>
      rw [toList_text_arm, toList_text_arm] at same
      obtain ⟨sites, branches⟩ := append_cons_inj_of_first (not_mem_toDigits (by decide) _)
        (not_mem_toDigits (by decide) _) (List.cons.inj same).2
      rw [UInt32.toNat_inj.mp (toDigits_injective sites),
        UInt32.toNat_inj.mp (toDigits_injective branches)]
    | item index' =>
      rw [toList_text_arm, toList_text_item] at same
      cases (List.cons.inj same).1
  | item index =>
    cases turn' with
    | arm site' branchId' =>
      rw [toList_text_arm, toList_text_item] at same
      cases (List.cons.inj same).1
    | item index' =>
      rw [toList_text_item, toList_text_item] at same
      rw [toDigits_injective (List.cons.inj same).2]

theorem text_ne_nil (turn : Turn) : turn.text.toList ≠ [] := by
  cases turn with
  | arm site branchId => simp [toList_text_arm]
  | item index => simp [toList_text_item]

/-- The separators of keys do not occur in path elements. -/
theorem not_mem_text {c : Char} (turn : Turn) (other : c.isDigit = false) (plain : c ∉ ['s', 'b', 'i']) :
    c ∉ turn.text.toList := by
  simp only [mem_cons, not_mem_nil, or_false, not_or] at plain
  cases turn with
  | arm site branchId => simp [toList_text_arm, not_mem_toDigits other, plain]
  | item index => simp [toList_text_item, not_mem_toDigits other, plain]

end Turn

theorem Address.toList_keyBelow (a : Address) :
    (a.keyBelow []).toList = (['/'].intercalate (a.turns.map (·.text.toList)) ++
      '/' :: Nat.toDigits 10 a.index) ++ ':' :: a.component.toList := by
  simp [keyBelow, childKey, toString, Nat.toList_repr, String.toList_intercalate, Function.comp_def]

/-- The address of a marker can be read off the key. -/
theorem Address.keyBelow_injective : Function.Injective (Address.keyBelow []) := by
  have notColon (a : Address) : ':' ∉ ['/'].intercalate (a.turns.map (·.text.toList)) ++
      '/' :: Nat.toDigits 10 a.index := by
    rw [mem_append, mem_cons]
    rintro (inPath | isSlash | inIndex)
    · rcases mem_intercalate inPath with isSlash | ⟨part, isPart, inPart⟩
      · cases isSlash
      · obtain ⟨turn, _, rfl⟩ := mem_map.mp isPart
        exact turn.not_mem_text (by decide) (by decide) inPart
    · cases isSlash
    · exact not_mem_toDigits (by decide) _ inIndex
  have plain (a : Address) : ∀ part ∈ a.turns.map (·.text.toList), part ≠ [] ∧ '/' ∉ part := by
    intro part isPart
    obtain ⟨turn, _, rfl⟩ := mem_map.mp isPart
    exact ⟨turn.text_ne_nil, turn.not_mem_text (by decide) (by decide)⟩
  intro a a' same
  have same := congrArg String.toList same
  rw [toList_keyBelow, toList_keyBelow] at same
  obtain ⟨same, components⟩ := append_cons_inj_of_first (notColon a) (notColon a') same
  obtain ⟨paths, indices⟩ := append_cons_inj_of_last (not_mem_toDigits (by decide) _)
    (not_mem_toDigits (by decide) _) same
  have texts : Function.Injective fun turn : Turn => turn.text.toList :=
    fun turn turn' same => Turn.text_injective (String.toList_inj.mp same)
  have turns := map_injective_iff.mpr texts (intercalate_inj (plain a) (plain a') paths)
  obtain ⟨turns, index, component⟩ := a
  obtain ⟨turns', index', component'⟩ := a'
  congr 1
  · exact toDigits_injective indices
  · exact String.toList_inj.mp components

end ReactiveView
