import Mathlib.Data.List.Basic
import ReactiveView.Proofs.CharacterBoundaries
import ReactiveView.Script.Splice

/-!
# Simultaneous replacement

Splicing makes one replacement after another in a text that changes under way.  Replacements that
lie apart do not disturb each other: as the last one in the text is made first, those that remain
lie in a part that is still as it was (`Descends`).  So the text is the one in which all places are
replaced at once (`IsSubstitution`), and the order in which the replacements are listed does not
matter.

Positions count characters, so no cut can lie inside one.  With positions that count bytes
(`spliceBytes?`) a cut can fail.  At places between characters it never does, although the cuts are
made in the changed text, and the result is the same.
-/

namespace ReactiveView.Script

open List

/-! ## Places and their order -/

/-- A replacement with positions counted from `offset` on. -/
def Replacement.shift (offset : Nat) (r : Replacement) : Replacement :=
  { r with start := r.start - offset, stop := r.stop - offset }

/-- Replacements in a text of the given length, with positions counted from `offset` before the
    text: each replaces something in the text, and no two have a place in common. -/
structure LieApart (offset length : Nat) (rs : List Replacement) : Prop where
  after : ∀ r ∈ rs, offset ≤ r.start
  nonempty : ∀ r ∈ rs, r.start < r.stop
  within : ∀ r ∈ rs, r.stop - offset ≤ length
  disjoint : rs.Pairwise fun a b => a.stop ≤ b.start ∨ b.stop ≤ a.start

/-- Replacements in a text of the given length, each in the part before the one listed before it. -/
structure Descends (length : Nat) (rs : List Replacement) : Prop where
  nonempty : ∀ r ∈ rs, r.start < r.stop
  within : ∀ r ∈ rs, r.stop ≤ length
  descending : rs.Pairwise fun a b => b.stop ≤ a.start

namespace Descends

variable {length : Nat} {r : Replacement} {rs : List Replacement}

theorem head (descends : Descends length (r :: rs)) : r.start < r.stop ∧ r.stop ≤ length :=
  ⟨descends.nonempty r mem_cons_self, descends.within r mem_cons_self⟩

theorem length_take {code : List Char} (descends : Descends code.length (r :: rs)) :
    (code.take r.start).length = r.start :=
  length_take_of_le (Nat.le_trans (Nat.le_of_lt descends.head.1) descends.head.2)

/-- After the first replacement, the others lie in the part before it. -/
theorem tail (descends : Descends length (r :: rs)) : Descends r.start rs where
  nonempty s member := descends.nonempty s (mem_cons_of_mem r member)
  within := (pairwise_cons.mp descends.descending).1
  descending := (pairwise_cons.mp descends.descending).2

theorem mono {length' : Nat} (descends : Descends length rs) (le : length ≤ length') :
    Descends length' rs where
  nonempty := descends.nonempty
  within s member := Nat.le_trans (descends.within s member) le
  descending := descends.descending

/-- There is one way to list replacements in descending order. -/
theorem eq_of_perm {length' : Nat} {rs' : List Replacement} (descends : Descends length rs)
    (descends' : Descends length' rs') (perm : rs.Perm rs') : rs = rs' := by
  refine perm.eq_of_pairwise ?_ descends.descending descends'.descending
  intro a b member member' before before'
  have := descends.nonempty a member
  have := descends'.nonempty b member'
  omega

end Descends

/-! ## What splicing does in which order -/

/-- The replacements that splicing makes, in the order in which it makes them. -/
def schedule (offset : Nat) (rs : List Replacement) : List Replacement :=
  (rs.mergeSort fun a b => b.start ≤ a.start).filterMap (Replacement.shift? offset)

theorem splice_eq_foldl (offset : Nat) (rs : List Replacement) (code : List Char) :
    splice offset rs code = (schedule offset rs).foldl (fun code r => r.apply code) code := rfl

theorem pairwise_schedule (offset : Nat) (rs : List Replacement) :
    (schedule offset rs).Pairwise fun a b => b.start ≤ a.start := by
  have sorted := @List.pairwise_mergeSort _ (fun a b : Replacement => b.start ≤ a.start)
    (fun a b c => by simp only [decide_eq_true_eq]; omega)
    (fun a b => by simp only [Bool.or_eq_true, decide_eq_true_eq]; omega) rs
  refine sorted.filterMap _ ?_
  intro a b le a' shifted b' shifted'
  simp only [Replacement.shift?, Option.ite_none_right_eq_some, Option.some.injEq]
    at shifted shifted'
  obtain ⟨-, rfl⟩ := shifted
  obtain ⟨-, rfl⟩ := shifted'
  exact Nat.sub_le_sub_right (of_decide_eq_true le) offset

section Schedule

variable {offset length : Nat} {rs early listed : List Replacement}
  (apart : LieApart offset length rs) (isEarly : ∀ r ∈ early, r.start < offset)
  (perm : listed.Perm (rs ++ early))
include apart isEarly perm

/-- What starts before the offset is left out, and all else is made, the last place first. -/
theorem schedule_spec : (schedule offset listed).Perm (rs.map (·.shift offset)) ∧
    Descends length (schedule offset listed) := by
  have kept : rs.filterMap (Replacement.shift? offset) = rs.map (·.shift offset) := by
    rw [filterMap_eq_map_iff_forall_eq_some]
    intro r member
    have le := apart.after r member
    exact if_pos ⟨le, Nat.le_trans le (Nat.le_of_lt (apart.nonempty r member))⟩
  have dropped : early.filterMap (Replacement.shift? offset) = [] := by
    rw [filterMap_eq_nil_iff]
    intro r member
    exact if_neg fun le => Nat.not_le_of_lt (isEarly r member) le.1
  have made : (schedule offset listed).Perm ((rs ++ early).filterMap (Replacement.shift? offset)) :=
    ((mergeSort_perm listed _).trans perm).filterMap _
  rw [filterMap_append, kept, dropped, append_nil] at made
  have nonempty : ∀ r ∈ rs.map (·.shift offset), r.start < r.stop :=
    forall_mem_map.mpr fun r member =>
      Nat.sub_lt_sub_right (apart.after r member) (apart.nonempty r member)
  have within : ∀ r ∈ rs.map (·.shift offset), r.stop ≤ length :=
    forall_mem_map.mpr apart.within
  have disjoint : (rs.map (·.shift offset)).Pairwise fun a b =>
      a.stop ≤ b.start ∨ b.stop ≤ a.start :=
    apart.disjoint.map _ fun _ _ sides =>
      sides.imp (Nat.sub_le_sub_right · offset) (Nat.sub_le_sub_right · offset)
  refine ⟨made, fun r member => nonempty r (made.subset member),
    fun r member => within r (made.subset member), ?_⟩
  -- of two places that lie apart, the one that starts first also ends first
  refine List.Pairwise.imp_of_mem ?_
    ((pairwise_schedule offset listed).and (made.symm.pairwise disjoint Or.symm))
  intro a b member member' order
  have := nonempty a (made.subset member)
  have := nonempty b (made.subset member')
  omega

end Schedule

theorem LieApart.schedule {offset length : Nat} {rs : List Replacement}
    (apart : LieApart offset length rs) :
    (schedule offset rs).Perm (rs.map (·.shift offset)) ∧ Descends length (schedule offset rs) :=
  schedule_spec apart (forall_mem_nil _) (.of_eq (append_nil rs).symm)

/-- The same replacements are made in the same order, however they are listed. -/
theorem schedule_eq {offset length : Nat} {rs early listed : List Replacement}
    (apart : LieApart offset length rs) (isEarly : ∀ r ∈ early, r.start < offset)
    (perm : listed.Perm (rs ++ early)) : schedule offset listed = schedule offset rs := by
  obtain ⟨made, descends⟩ := schedule_spec apart isEarly perm
  exact descends.eq_of_perm apart.schedule.2 (made.trans apart.schedule.1.symm)

/-! ## One replacement after another -/

/-- The parts of a text that ascending replacements leave, from `start` on, and the texts of the
    replacements, in the order in which they stand. -/
def weave (code : List Char) (start : Nat) : List Replacement → List Char
  | [] => code.drop start
  | r :: rest => (code.take r.start).drop start ++ r.text ++ weave code r.stop rest

/-- The text `code` with each place that `rs` name, counted from `offset` on, replaced: the
    untouched parts and the replacement texts, in the order of the places. -/
def IsSubstitution (offset : Nat) (code : List Char) (rs : List Replacement)
    (result : List Char) : Prop :=
  ∃ ordered, ordered.Perm (rs.map (·.shift offset)) ∧
    ordered.Pairwise (fun a b => a.stop ≤ b.start) ∧ result = weave code 0 ordered

/-- A text after all replacements stays as it is. -/
theorem weave_append {front : List Char} (back : List Char) {start : Nat} {rs : List Replacement}
    (inside : ∀ r ∈ rs, r.start ≤ r.stop ∧ r.stop ≤ front.length) (le : start ≤ front.length) :
    weave (front ++ back) start rs = weave front start rs ++ back := by
  induction rs generalizing start with
  | nil => exact drop_append_of_le_length le
  | cons r rs ih =>
    obtain ⟨⟨order, le'⟩, inside⟩ := forall_mem_cons.mp inside
    rw [weave, weave, ih inside le', take_append_of_le_length (Nat.le_trans order le')]
    simp only [append_assoc]

/-- The last replacement cuts off the part in which the others lie. -/
theorem weave_concat (code : List Char) (start : Nat) {r : Replacement} {rs : List Replacement}
    (before : ∀ s ∈ rs, s.start ≤ r.start) :
    weave code start (rs ++ [r]) =
      weave (code.take r.start) start rs ++ (r.text ++ code.drop r.stop) := by
  induction rs generalizing start with
  | nil => simp only [nil_append, weave, append_assoc]
  | cons s rs ih =>
    obtain ⟨le, before⟩ := forall_mem_cons.mp before
    rw [cons_append, weave, weave, ih s.stop before, take_take, Nat.min_eq_left le]
    simp only [append_assoc]

section Run

variable {code : List Char} {r : Replacement} {rs : List Replacement}

section

variable (descends : Descends code.length (r :: rs))
include descends

theorem apply_of_descends : r.apply code = code.take r.start ++ (r.text ++ code.drop r.stop) := by
  rw [Replacement.apply, if_pos ⟨descends.head.2, Nat.le_of_lt descends.head.1⟩, append_assoc]

/-- A replacement leaves the part of the text before it. -/
theorem take_apply {p : Nat} (le : p ≤ r.start) : (r.apply code).take p = code.take p := by
  rw [apply_of_descends descends, take_append_of_le_length (descends.length_take.symm ▸ le),
    take_take, Nat.min_eq_left le]

/-- After a replacement the others lie in the text still. -/
theorem Descends.after_apply : Descends (r.apply code).length rs := by
  apply descends.tail.mono
  rw [apply_of_descends descends, length_append, descends.length_take]
  exact Nat.le_add_right ..

end

theorem foldl_apply_eq_weave (descends : Descends code.length rs) :
    rs.foldl (fun code r => r.apply code) code = weave code 0 rs.reverse := by
  induction rs generalizing code with
  | nil => rfl
  | cons r rs ih =>
    have before (s : Replacement) (member : s ∈ rs.reverse) :
        s.start ≤ s.stop ∧ s.stop ≤ r.start := by
      have member := mem_reverse.mp member
      exact ⟨Nat.le_of_lt (descends.tail.nonempty s member), descends.tail.within s member⟩
    calc (r :: rs).foldl (fun code r => r.apply code) code
        = weave (r.apply code) 0 rs.reverse := ih descends.after_apply
      _ = weave (code.take r.start) 0 rs.reverse ++ (r.text ++ code.drop r.stop) := by
        rw [apply_of_descends descends]
        exact weave_append _ (descends.length_take.symm ▸ before) (Nat.zero_le _)
      _ = weave code 0 (r :: rs).reverse := by
        rw [reverse_cons, weave_concat]
        exact fun s member => Nat.le_trans (before s member).1 (before s member).2

end Run

/-! ## Positions in bytes -/

/-- The number of characters in the first `n` bytes of a text, if these end between characters. -/
def position (code : List Char) (n : Nat) : Nat :=
  ((Expr.splitBytes? n code).map (·.1.length)).getD 0

namespace Replacement

/-- A replacement with positions that count bytes, for one with positions that count characters. -/
def inBytes (code : List Char) (r : Replacement) : Replacement :=
  { r with start := Expr.offset code r.start, stop := Expr.offset code r.stop }

/-- A replacement with positions that count characters, for one with positions that count bytes,
    both from `offset` on. -/
def inCharacters (offset : Nat) (code : List Char) (r : Replacement) : Replacement :=
  { r with
    start := offset + position code (r.start - offset)
    stop := offset + position code (r.stop - offset) }

/-- Make one replacement, if it lies within the bytes of the text.  There is no result if it begins
    or ends inside a character. -/
def applyBytes? (r : Replacement) (code : List Char) : Option (List Char) :=
  if r.stop ≤ (Expr.utf8 code).length ∧ r.start ≤ r.stop then do
    let (front, _) ← Expr.splitBytes? r.start code
    let (_, back) ← Expr.splitBytes? r.stop code
    return front ++ r.text ++ back
  else some code

end Replacement

/-- Make all replacements, whose positions count bytes. -/
def spliceBytes? (offset : Nat) (rs : List Replacement) (code : List Char) : Option (List Char) :=
  (schedule offset rs).foldlM (fun code r => r.applyBytes? code) code

/-- The places of replacements begin and end between characters. -/
def OnBoundaries (offset : Nat) (code : List Char) (rs : List Replacement) : Prop :=
  ∀ r ∈ rs, String.Pos.Raw.IsValid (String.ofList code) ⟨r.start - offset⟩ ∧
    String.Pos.Raw.IsValid (String.ofList code) ⟨r.stop - offset⟩

section Boundaries

variable {code : List Char} {b : Nat} (valid : String.Pos.Raw.IsValid (String.ofList code) ⟨b⟩)
include valid

/-- A place between characters is the offset of its position. -/
theorem offset_position :
    position code b ≤ code.length ∧ Expr.offset code (position code b) = b := by
  obtain ⟨i, here⟩ := String.Pos.Raw.isValid_ofList.mp valid
  have here : b = Expr.offset code i := by
    simpa [Expr.offset, Expr.utf8, ← String.size_toByteArray, List.utf8Encode] using here
  have counted : position code b = min i code.length := by
    rw [position, here, Expr.splitBytes?_offset, Option.map_some, Option.getD_some,
      List.length_take]
  rw [counted, here, Expr.offset, Expr.offset, ← take_eq_take_min]
  exact ⟨Nat.min_le_right .., rfl⟩

theorem position_le_iff {b' : Nat} (valid' : String.Pos.Raw.IsValid (String.ofList code) ⟨b'⟩) :
    position code b ≤ position code b' ↔ b ≤ b' := by
  obtain ⟨inside, here⟩ := offset_position valid
  obtain ⟨-, here'⟩ := offset_position valid'
  constructor
  · intro le
    rw [← here, ← here']
    exact Expr.offset_le code le
  · intro le
    apply Nat.le_of_not_lt
    intro lt
    have lt := (Expr.offset_lt_offset (Nat.lt_of_lt_of_le lt inside)).mpr lt
    rw [here, here'] at lt
    exact Nat.not_le_of_lt lt le

end Boundaries

section Bytes

variable {code : List Char} {rs : List Replacement}

theorem Descends.inBytes (descends : Descends code.length rs) :
    Descends (Expr.utf8 code).length (rs.map (·.inBytes code)) where
  nonempty := by
    rw [forall_mem_map]
    intro r member
    have lt := descends.nonempty r member
    exact (Expr.offset_lt_offset (Nat.lt_of_lt_of_le lt (descends.within r member))).mpr lt
  within := by
    rw [forall_mem_map]
    intro r member
    rw [← Expr.offset_length]
    exact Expr.offset_le code (descends.within r member)
  descending := descends.descending.map _ fun _ _ le => Expr.offset_le code le

/-- A replacement at the bytes of its positions cuts no character. -/
theorem applyBytes?_inBytes {r : Replacement} (descends : Descends code.length (r :: rs)) :
    (r.inBytes code).applyBytes? code = some (r.apply code) := by
  have head := descends.inBytes.head
  rw [Replacement.applyBytes?, if_pos ⟨head.2, Nat.le_of_lt head.1⟩, apply_of_descends descends]
  simp [Replacement.inBytes, Expr.splitBytes?_offset]

theorem foldlM_applyBytes? (descends : Descends code.length rs) :
    (rs.map (·.inBytes code)).foldlM (fun code r => r.applyBytes? code) code =
      some (rs.foldl (fun code r => r.apply code) code) := by
  induction rs generalizing code with
  | nil => rfl
  | cons r rs ih =>
    -- those that remain are at the same bytes of the changed text
    have same : rs.map (·.inBytes code) = rs.map (·.inBytes (r.apply code)) := by
      apply map_congr_left
      intro s member
      have stop := descends.tail.within s member
      have start := Nat.le_trans (Nat.le_of_lt (descends.tail.nonempty s member)) stop
      simp only [Replacement.inBytes, Expr.offset, take_apply descends start,
        take_apply descends stop]
    rw [map_cons, foldlM_cons, applyBytes?_inBytes descends, same]
    exact ih descends.after_apply

variable {offset : Nat} (apart : LieApart offset (Expr.utf8 code).length rs)
  (boundaries : OnBoundaries offset code rs)
include apart boundaries

theorem LieApart.inCharacters :
    LieApart offset code.length (rs.map (·.inCharacters offset code)) where
  after := by
    rw [forall_mem_map]
    exact fun r _ => Nat.le_add_right ..
  nonempty := by
    rw [forall_mem_map]
    intro r member
    obtain ⟨start, stop⟩ := boundaries r member
    apply Nat.add_lt_add_left
    rw [← Nat.not_le, position_le_iff stop start, Nat.not_le]
    exact Nat.sub_lt_sub_right (apart.after r member) (apart.nonempty r member)
  within := by
    rw [forall_mem_map]
    intro r member
    rw [Replacement.inCharacters, Nat.add_sub_cancel_left]
    exact (offset_position (boundaries r member).2).1
  disjoint := by
    have before (a : Replacement) (member : a ∈ rs) (b : Replacement) (member' : b ∈ rs)
        (le : a.stop ≤ b.start) :
        (a.inCharacters offset code).stop ≤ (b.inCharacters offset code).start := by
      apply Nat.add_le_add_left
      exact (position_le_iff (boundaries a member).2 (boundaries b member').1).mpr
        (Nat.sub_le_sub_right le offset)
    rw [pairwise_map]
    refine apart.disjoint.imp_of_mem ?_
    intro a b member member' sides
    exact sides.imp (before a member b member') (before b member' a member)

theorem schedule_inBytes : schedule offset rs =
    (schedule offset (rs.map (·.inCharacters offset code))).map (·.inBytes code) := by
  have chars := apart.inCharacters boundaries
  have back : ((rs.map (·.inCharacters offset code)).map (·.shift offset)).map (·.inBytes code) =
      rs.map (·.shift offset) := by
    simp only [map_map]
    apply map_congr_left
    intro r member
    obtain ⟨start, stop⟩ := boundaries r member
    simp only [Function.comp, Replacement.inCharacters, Replacement.shift, Replacement.inBytes,
      Nat.add_sub_cancel_left, (offset_position start).2, (offset_position stop).2]
  apply apart.schedule.2.eq_of_perm chars.schedule.2.inBytes
  exact apart.schedule.1.trans (back ▸ (chars.schedule.1.map (·.inBytes code)).symm)

theorem spliceBytes?_eq :
    spliceBytes? offset rs code =
      some (splice offset (rs.map (·.inCharacters offset code)) code) := by
  rw [spliceBytes?, schedule_inBytes apart boundaries, splice_eq_foldl,
    foldlM_applyBytes? (apart.inCharacters boundaries).schedule.2]

end Bytes

theorem isSubstitution_splice {offset : Nat} {code : List Char} {rs : List Replacement}
    (apart : LieApart offset code.length rs) :
    IsSubstitution offset code rs (splice offset rs code) := by
  refine ⟨(schedule offset rs).reverse, ?_, ?_, ?_⟩
  · exact (reverse_perm _).trans apart.schedule.1
  · exact pairwise_reverse.mpr apart.schedule.2.descending
  · rw [splice_eq_foldl, foldl_apply_eq_weave apart.schedule.2]

/-- Splicing replaces all places at once: the result is made of the untouched parts of the text and
    of the replacement texts, in the order of the places.  It is the same for every order in which
    the replacements are listed, and others may be listed that start before the offset.

    Places that are counted in bytes, and that begin and end between characters, are places of
    characters.  Splicing at these bytes cuts no character, and has the same result. -/
theorem splice_replaces_at_once (offset : Nat) (code : List Char) :
    (∀ rs, LieApart offset code.length rs →
      IsSubstitution offset code rs (splice offset rs code) ∧
      ∀ early listed, (∀ r ∈ early, r.start < offset) → listed.Perm (rs ++ early) →
        splice offset listed code = splice offset rs code) ∧
    ∀ rs, LieApart offset (Expr.utf8 code).length rs → OnBoundaries offset code rs →
      LieApart offset code.length (rs.map (·.inCharacters offset code)) ∧
      ∀ early listed, (∀ r ∈ early, r.start < offset) → listed.Perm (rs ++ early) →
        spliceBytes? offset listed code =
          some (splice offset (rs.map (·.inCharacters offset code)) code) := by
  constructor
  · intro rs apart
    refine ⟨isSubstitution_splice apart, ?_⟩
    intro early listed isEarly perm
    rw [splice_eq_foldl, schedule_eq apart isEarly perm, ← splice_eq_foldl]
  · intro rs apart boundaries
    refine ⟨apart.inCharacters boundaries, ?_⟩
    intro early listed isEarly perm
    rw [spliceBytes?, schedule_eq apart isEarly perm, ← spliceBytes?_eq apart boundaries,
      spliceBytes?]

namespace TwoFields

/-- Two references, each after a character of two bytes. -/
def code : List Char := ['ü', '.', '$', 'x', ' ', '+', ' ', 'ü', '.', '$', 'y']

/-- The places of both references, the later first, in bytes from ten bytes before the code on. -/
def spans : List Replacement := [⟨21, 23, ['y']⟩, ⟨13, 15, ['x', '_', '_']⟩]

/-- It starts before the code and ends in it. -/
def across : Replacement := ⟨4, 12, ['z']⟩

def result : List Char := ['ü', '.', 'x', '_', '_', ' ', '+', ' ', 'ü', '.', 'y']

end TwoFields

theorem splice_replaces_at_once_twoFields :
    LieApart 10 (Expr.utf8 TwoFields.code).length TwoFields.spans ∧
    OnBoundaries 10 TwoFields.code TwoFields.spans ∧
    IsSubstitution 10 TwoFields.code (TwoFields.spans.map (·.inCharacters 10 TwoFields.code))
      TwoFields.result ∧
    spliceBytes? 10 (TwoFields.across :: TwoFields.spans.reverse) TwoFields.code =
      some TwoFields.result := by
  have apart : LieApart 10 (Expr.utf8 TwoFields.code).length TwoFields.spans :=
    ⟨by decide, by decide, by decide, by decide⟩
  have boundaries : OnBoundaries 10 TwoFields.code TwoFields.spans := by
    have valid := Expr.isValid_offset TwoFields.code
    simp only [OnBoundaries, TwoFields.spans, forall_mem_cons, not_mem_nil, false_implies,
      implies_true, and_true]
    exact ⟨⟨valid 9, valid 11⟩, valid 2, valid 4⟩
  have value : splice 10 (TwoFields.spans.map (·.inCharacters 10 TwoFields.code)) TwoFields.code =
      TwoFields.result := by
    rw [splice, mergeSort_of_pairwise (by decide)]
    decide
  have both := splice_replaces_at_once 10 TwoFields.code
  obtain ⟨chars, bytes⟩ := both.2 TwoFields.spans apart boundaries
  have replaced := (both.1 _ chars).1
  have listed := bytes [TwoFields.across] (TwoFields.across :: TwoFields.spans.reverse) (by decide)
    (by decide)
  rw [value] at replaced listed
  exact ⟨apart, boundaries, replaced, listed⟩

end ReactiveView.Script
