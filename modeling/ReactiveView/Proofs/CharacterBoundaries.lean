import ReactiveView.Proofs.ByteScans

/-!
# Cuts at character boundaries

A text can also be cut at offsets of its bytes, if they do not lie inside a character (`slice?`).  The
offsets at which evaluation cuts are found by scans over bytes and moved by the lengths of operators;
they all lie between characters, and the cuts are those at the positions of the operators
(`SlicesWhole`).  As every part is shorter than the text as well, each text has one value
(`evaluation_cuts_between_characters`).
-/

namespace ReactiveView.Expr

open List

/-! ## Slices -/

/-- The first `n` bytes of a text and the rest, unless the cut lies inside a character or after the
    end. -/
def splitBytes? : Nat → List Char → Option (List Char × List Char)
  | 0, cs => some ([], cs)
  | _ + 1, [] => none
  | n + 1, c :: cs =>
    if n + 1 < c.utf8Size then none
    else (splitBytes? (n + 1 - c.utf8Size) cs).map fun (front, back) => (c :: front, back)

structure ByteRange where
  start : Nat
  stop : Nat
deriving DecidableEq, Repr

/-- The text in a range of bytes, unless an end of the range lies inside a character or after the end
    of the text. -/
def slice? (cs : List Char) (range : ByteRange) : Option (List Char) := do
  let (_, rest) ← splitBytes? range.start cs
  let (part, _) ← splitBytes? (range.stop - range.start) rest
  if range.start ≤ range.stop then return part else none

/-- The texts in several ranges. -/
def slices? (cs : List Char) (ranges : List ByteRange) : Option (List (List Char)) :=
  ranges.mapM (slice? cs)

variable {cs part : List Char} {p q : Nat}

theorem slices?_cons {parts : List (List Char)} {range : ByteRange} {ranges : List ByteRange}
    (first : slice? cs range = some part) (rest : slices? cs ranges = some parts) :
    slices? cs (range :: ranges) = some (part :: parts) := by
  rw [slices?] at rest
  simp [slices?, first, rest]

theorem slices?_nil (cs : List Char) : slices? cs [] = some [] := rfl

theorem splitBytes?_offset (cs : List Char) (p : Nat) :
    splitBytes? (offset cs p) cs = some (cs.take p, cs.drop p) := by
  induction cs generalizing p with
  | nil => simp [offset, utf8, splitBytes?]
  | cons c cs ih =>
    cases p with
    | zero => simp [offset, utf8, splitBytes?]
    | succ p =>
      obtain ⟨w, width⟩ := Nat.exists_eq_add_one.mpr c.utf8Size_pos
      rw [offset_cons, String.length_utf8EncodeChar, width, ← Nat.add_assoc, splitBytes?, width]
      simp [ih]

/-- The text between two positions. -/
theorem slice?_offset (cs : List Char) (le : p ≤ q) :
    slice? cs ⟨offset cs p, offset cs q⟩ = some ((cs.take q).drop p) := by
  obtain ⟨n, rfl⟩ := Nat.exists_eq_add_of_le le
  simp [slice?, splitBytes?_offset, offset_add, drop_take]

theorem offset_zero (cs : List Char) : offset cs 0 = 0 := by simp [offset, utf8]

theorem offset_le (cs : List Char) (le : p ≤ q) : offset cs p ≤ offset cs q := by
  obtain ⟨n, rfl⟩ := Nat.exists_eq_add_of_le le
  rw [offset_add]
  exact Nat.le_add_right ..

theorem offset_lt_offset (inside : p < cs.length) : offset cs p < offset cs q ↔ p < q := by
  constructor
  · intro lt
    apply Nat.lt_of_not_le
    intro le
    exact Nat.not_le_of_lt lt (offset_le cs le)
  · intro lt
    obtain ⟨n, rfl⟩ := Nat.exists_eq_add_of_lt lt
    rw [Nat.add_assoc, offset_add, drop_eq_getElem_cons inside, offset_cons,
      String.length_utf8EncodeChar]
    exact Nat.lt_add_of_pos_right (Nat.add_pos_right _ (Char.utf8Size_pos _))

/-! ## Offsets of operators -/

section Operators

variable {op cs : List Char} {p : Nat} (member : p ∈ topLevel op cs)
include member

theorem take_drop_of_mem_topLevel : (cs.drop p).take op.length = op := by
  have stands := (mem_topLevelFrom member).2.2
  rw [Nat.sub_zero, isPrefixOf_iff_prefix, prefix_iff_eq_take] at stands
  exact stands.symm

theorem add_length_le_of_mem_topLevel : p + op.length ≤ cs.length := by
  have inside := lt_length_of_mem_topLevel member
  have length := congrArg List.length (take_drop_of_mem_topLevel member)
  simp only [List.length_take, length_drop] at length
  omega

/-- An operator ends at the offset of the position after it. -/
theorem offset_add_length : offset cs (p + op.length) = offset cs p + (utf8 op).length := by
  rw [offset_add, offset, offset, take_drop_of_mem_topLevel member]

end Operators

/-- What a scan for an operator finds in the bytes of a text: the offsets of its positions, in
    ascending order and apart, each in the text, with the operator there, and each between two
    characters. -/
structure ScansWell (op cs : List Char) : Prop where
  offsets : byteOffsets (utf8 op) (utf8 cs) = (topLevel op cs).map (offset cs)
  stands : ∀ p ∈ byteOffsets (utf8 op) (utf8 cs),
    p + (utf8 op).length ≤ (utf8 cs).length ∧ utf8 op <+: (utf8 cs).drop p
  apart : (byteOffsets (utf8 op) (utf8 cs)).Pairwise fun p q => p < q ∧ p + (utf8 op).length ≤ q
  boundaries : ∀ p ∈ byteOffsets (utf8 op) (utf8 cs),
    String.Pos.Raw.IsValid (String.ofList cs) ⟨p⟩ ∧
      String.Pos.Raw.IsValid (String.ofList cs) ⟨p + (utf8 op).length⟩

theorem isValid_offset (cs : List Char) (p : Nat) :
    String.Pos.Raw.IsValid (String.ofList cs) ⟨offset cs p⟩ := by
  rw [String.Pos.Raw.isValid_ofList]
  exact ⟨p, by simp [offset, utf8, ← String.size_toByteArray, List.utf8Encode]⟩

theorem scansWell (head : Char) (tail cs : List Char) : ScansWell (head :: tail) cs := by
  have offsets := byteOffsets_utf8 head tail cs
  constructor
  · exact offsets
  · intro b found
    rw [offsets, mem_map] at found
    obtain ⟨p, member, rfl⟩ := found
    rw [← offset_add_length member, ← offset_length cs, drop_offset, utf8_prefix_iff]
    exact ⟨offset_le cs (add_length_le_of_mem_topLevel member),
      prefix_iff_eq_take.mpr (take_drop_of_mem_topLevel member).symm⟩
  · rw [offsets, pairwise_map]
    apply (pairwise_topLevelFrom head tail .code 0 0 0 cs).imp_of_mem
    intro p q member _ le
    rw [← offset_add_length member]
    refine ⟨(offset_lt_offset (lt_length_of_mem_topLevel member)).mpr ?_, offset_le cs le⟩
    exact Nat.lt_of_lt_of_le (Nat.lt_add_of_pos_right (by simp)) le
  · intro b found
    rw [offsets, mem_map] at found
    obtain ⟨p, member, rfl⟩ := found
    rw [← offset_add_length member]
    exact ⟨isValid_offset cs p, isValid_offset cs _⟩

/-! ## Ranges of the parts -/

/-- The text between a character at the front and one at the end. -/
def enclosed? (opening closing : Char) : List Char → Option (List Char)
  | [] => none
  | c :: rest => if c = opening ∧ rest.getLast? = some closing then some rest.dropLast else none

/-- The texts before and after the first occurrence of an operator. -/
def sides? (op cs : List Char) : Option (List Char × List Char) :=
  (topLevel op cs).head?.map fun p => (cs.take p, cs.drop (p + op.length))

def enclosedRange? (opening closing : UInt8) (bs : List UInt8) : Option (List ByteRange) :=
  if 2 ≤ bs.length ∧ bs.head? = some opening ∧ bs.getLast? = some closing then
    some [⟨1, bs.length - 1⟩]
  else none

def ternaryRanges? (bs : List UInt8) : Option (List ByteRange) := do
  let question ← (byteOffsets (utf8 ['?']) bs).head?
  let colon ← (byteOffsets (utf8 [':']) bs).find? (question < ·)
  return [⟨0, question⟩, ⟨question + 1, colon⟩, ⟨colon + 1, bs.length⟩]

def sidesRanges? (op bs : List UInt8) : Option (List ByteRange) :=
  (byteOffsets op bs).head?.map fun p => [⟨0, p⟩, ⟨p + op.length, bs.length⟩]

/-- The ranges between the bytes at ascending offsets. -/
def rangesBetween (start stop : Nat) : List Nat → List ByteRange
  | [] => [⟨start, stop⟩]
  | p :: ps => ⟨start, p⟩ :: rangesBetween (p + 1) stop ps

def sumRanges? (bs : List UInt8) : Option (List ByteRange) :=
  match byteOffsets (utf8 ['+']) bs with
  | [] => none
  | p :: ps => if p = 0 then none else some (rangesBetween 0 bs.length (p :: ps))

theorem slice?_take (cs : List Char) (p : Nat) : slice? cs ⟨0, offset cs p⟩ = some (cs.take p) := by
  have sliced := slice?_offset cs (Nat.zero_le p)
  rwa [offset_zero, drop_zero] at sliced

theorem slice?_drop (inside : p ≤ cs.length) :
    slice? cs ⟨offset cs p, (utf8 cs).length⟩ = some (cs.drop p) := by
  have sliced := slice?_offset cs inside
  rwa [offset_length, take_length] at sliced

theorem ternaryRanges?_utf8 (cs : List Char) : (ternaryRanges? (utf8 cs)).map (slices? cs) =
    (ternary? cs).map fun cut => some [cut.1, cut.2.1, cut.2.2] := by
  rw [ternaryRanges?, byteOffsets_utf8, byteOffsets_utf8, ternary?, List.head?_map]
  cases first : (topLevel ['?'] cs).head? with
  | none => rfl
  | some question =>
    have isQuestion := mem_of_head? first
    simp only [Option.map_some, Option.bind_eq_bind, Option.bind_some, List.find?_map,
      Function.comp_def, offset_lt_offset (lt_length_of_mem_topLevel isQuestion)]
    cases found : (topLevel [':'] cs).find? (question < ·) with
    | none => rfl
    | some colon =>
      have isColon := mem_of_find?_eq_some found
      have less : question < colon := by simpa using List.find?_some found
      have yes := slice?_offset cs (Nat.add_one_le_of_lt less)
      have no := slice?_drop (add_length_le_of_mem_topLevel isColon)
      have afterQuestion : offset cs (question + 1) = offset cs question + 1 :=
        offset_add_length isQuestion
      have afterColon : offset cs (colon + 1) = offset cs colon + 1 := offset_add_length isColon
      rw [length_singleton, afterColon] at no
      rw [afterQuestion] at yes
      exact congrArg some (slices?_cons (slice?_take cs question)
        (slices?_cons yes (slices?_cons no (slices?_nil cs))))

theorem sidesRanges?_utf8 (head : Char) (tail cs : List Char) :
    (sidesRanges? (utf8 (head :: tail)) (utf8 cs)).map (slices? cs) =
      (sides? (head :: tail) cs).map fun cut => some [cut.1, cut.2] := by
  rw [sidesRanges?, byteOffsets_utf8, sides?, List.head?_map]
  cases first : (topLevel (head :: tail) cs).head? with
  | none => rfl
  | some p =>
    have member := mem_of_head? first
    have right := slice?_drop (add_length_le_of_mem_topLevel member)
    rw [offset_add_length member] at right
    exact congrArg some (slices?_cons (slice?_take cs p) (slices?_cons right (slices?_nil cs)))

theorem slices?_rangesBetween {i : Nat} {ps : List Nat} (low : ∀ p ∈ ps, i ≤ p)
    (apart : ps.Pairwise (· < ·))
    (next : ∀ p ∈ ps, p < cs.length ∧ offset cs (p + 1) = offset cs p + 1)
    (inside : i ≤ cs.length) :
    slices? cs (rangesBetween (offset cs i) (utf8 cs).length (ps.map (offset cs))) =
      some (cutAt i (cs.drop i) ps) := by
  induction ps generalizing i with
  | nil => simp [rangesBetween, slices?, cutAt, slice?_drop inside]
  | cons p ps ih =>
    rw [forall_mem_cons] at low next
    rw [pairwise_cons] at apart
    have later := ih apart.1 apart.2 next.2 next.1.1
    have before := slice?_offset cs low.1
    have skipped : i + (p + 1 - i) = p + 1 := by omega
    rw [next.1.2] at later
    rw [map_cons, rangesBetween, slices?_cons before later, cutAt, drop_take,
      drop_drop, skipped]

theorem sumRanges?_utf8 (cs : List Char) : (sumRanges? (utf8 cs)).map (slices? cs) =
    (summands? cs).map fun cut => some (cut.1 :: cut.2) := by
  rw [sumRanges?, byteOffsets_utf8, summands?]
  have apart := pairwise_topLevelFrom '+' [] .code 0 0 0 cs
  change (topLevel ['+'] cs).Pairwise _ at apart
  have next (p : Nat) (member : p ∈ topLevel ['+'] cs) :
      p < cs.length ∧ offset cs (p + 1) = offset cs p + 1 :=
    ⟨lt_length_of_mem_topLevel member, offset_add_length member⟩
  cases found : topLevel ['+'] cs with
  | nil => rfl
  | cons p ps =>
    rw [found] at apart next
    have inside := (next p mem_cons_self).1
    by_cases atFront : p = 0
    · simp [atFront, offset_zero]
    · have later : offset cs p ≠ 0 := by
        have lt := (offset_lt_offset (Nat.zero_lt_of_lt inside)).mpr (Nat.pos_of_ne_zero atFront)
        rw [offset_zero] at lt
        exact Nat.ne_of_gt lt
      have sliced := slices?_rangesBetween (fun p _ => Nat.zero_le p) (apart.imp Nat.lt_of_succ_le)
        next (Nat.zero_le _)
      rw [offset_zero, drop_zero] at sliced
      simpa [later, atFront, cutAt] using sliced

section Enclosed

variable {opening closing : Char} (ascii : opening.toNat < 128) (ascii' : closing.toNat < 128)

include ascii in
/-- A byte of a character is below 128 only if it is the character. -/
theorem eq_byteOf_iff {c : Char} {b : UInt8} (member : b ∈ String.utf8EncodeChar c) :
    b = byteOf opening ↔ c = opening := by
  constructor
  · intro same
    exact Decidable.byContradiction fun other => ne_byteOf_of_mem ascii other member same
  · rintro rfl
    simpa [utf8EncodeChar_of_lt ascii] using member

include ascii in
theorem head?_utf8 (cs : List Char) :
    (utf8 cs).head? = some (byteOf opening) ↔ cs.head? = some opening := by
  cases cs with
  | nil => simp [utf8]
  | cons c cs =>
    obtain ⟨b, bs, bytes, -⟩ := exists_bytes c
    simp [utf8_cons, bytes, eq_byteOf_iff ascii (bytes ▸ mem_cons_self)]

include ascii in
theorem getLast?_utf8 (cs : List Char) :
    (utf8 cs).getLast? = some (byteOf opening) ↔ cs.getLast? = some opening := by
  obtain rfl | ⟨front, c, rfl⟩ := eq_nil_or_concat cs
  · simp [utf8]
  · have isLast := List.getLast?_eq_some_getLast (@String.utf8EncodeChar_ne_nil c)
    have same := eq_byteOf_iff ascii (getLast_mem (@String.utf8EncodeChar_ne_nil c))
    simp [utf8, isLast, same]

include ascii ascii' in
theorem enclosedRange?_utf8 (cs : List Char) :
    (enclosedRange? (byteOf opening) (byteOf closing) (utf8 cs)).map (slices? cs) =
      (enclosed? opening closing cs).map fun inner => some [inner] := by
  cases cs with
  | nil => rfl
  | cons c cs =>
    -- two characters are at least two bytes, and a bracket alone is only one
    have isEnclosed : 2 ≤ (utf8 (c :: cs)).length ∧ (utf8 (c :: cs)).head? = some (byteOf opening) ∧
        (utf8 (c :: cs)).getLast? = some (byteOf closing) ↔
          c = opening ∧ cs.getLast? = some closing := by
      rw [head?_utf8 ascii, getLast?_utf8 ascii', List.head?_cons, Option.some.injEq]
      cases cs with
      | nil =>
        simp only [List.getLast?_nil, reduceCtorEq, and_false, iff_false, not_and]
        rintro long rfl
        simp [utf8, utf8EncodeChar_of_lt ascii] at long
      | cons d cs =>
        have first := c.utf8Size_pos
        have second := d.utf8Size_pos
        simp only [List.getLast?_cons_cons, and_iff_right_iff_imp, utf8_cons, length_append,
          String.length_utf8EncodeChar]
        omega
    rw [enclosedRange?, enclosed?]
    by_cases ends : c = opening ∧ cs.getLast? = some closing
    · rw [if_pos ends, if_pos (isEnclosed.mpr ends)]
      obtain ⟨rfl, isLast⟩ := ends
      obtain ⟨inner, rfl⟩ := List.getLast?_eq_some_iff.mp isLast
      have sliced := slice?_offset (c :: (inner ++ [closing])) (Nat.le_add_left 1 inner.length)
      have start : offset (c :: (inner ++ [closing])) 1 = 1 := by
        simp [offset, utf8, utf8EncodeChar_of_lt ascii]
      have stop : (utf8 (c :: (inner ++ [closing]))).length - 1 =
          offset (c :: (inner ++ [closing])) (inner.length + 1) := by
        simp [offset, utf8, utf8EncodeChar_of_lt ascii']
      rw [start, ← stop] at sliced
      simpa using slices?_cons sliced (slices?_nil _)
    · rw [if_neg ends, if_neg fun found => ends (isEnclosed.mp found)]
      rfl

end Enclosed

/-- The cuts that evaluation makes in a text, in bytes and in characters: the operands of `? :`, of
    each comparison and of `+`, what stands in parentheses, and what stands between quotes.  A cut is
    made at offsets exactly if it is made at positions, both ends of each range lie between
    characters, and the texts are the same.  Comparisons and parentheses are then looked at more
    closely, in the texts that were cut out. -/
structure SlicesWhole (cs : List Char) : Prop where
  ternary : (ternaryRanges? (utf8 cs)).map (slices? cs) =
    (ternary? cs).map fun cut => some [cut.1, cut.2.1, cut.2.2]
  comparison : ∀ op : CompareOp, (sidesRanges? (utf8 op.symbol) (utf8 cs)).map (slices? cs) =
    (sides? op.symbol cs).map fun cut => some [cut.1, cut.2]
  compared : ∀ op : CompareOp, comparison? cs op = ((sides? op.symbol cs).filter fun cut =>
    !cut.1.getLast?.any fun c => c = '=' || c = '!' || c = '<' || c = '>').map (Prod.mk op)
  sum : (sumRanges? (utf8 cs)).map (slices? cs) =
    (summands? cs).map fun cut => some (cut.1 :: cut.2)
  group : (enclosedRange? (byteOf '(') (byteOf ')') (utf8 cs)).map (slices? cs) =
    (enclosed? '(' ')' cs).map fun inner => some [inner]
  unwrapped : unwrap? cs = (enclosed? '(' ')' cs).filter (neverCloses 0)
  string : ∀ quote, isQuote quote = true →
    (enclosedRange? (byteOf quote) (byteOf quote) (utf8 cs)).map (slices? cs) =
      (between? quote cs).map fun inner => some [inner]
  bare : ∀ quote, isQuote quote = true →
    (closing? (byteOf quote) (byteOf '\\') false (utf8 cs)).isSome = hasBareQuote quote cs

theorem isSome_closing? {quote : Char} (other : quote ≠ '\\') (cs : List Char) :
    (closing? quote '\\' false cs).isSome = hasBareQuote quote cs := by
  fun_induction hasBareQuote quote cs with
  | case1 => rfl
  | case2 c rest ih => simp [closing?, other.symm, ih]
  | case3 c rest plain ih =>
    by_cases isQuote : c = quote
    · simp [closing?, isQuote]
    by_cases isBackslash : c = '\\'
    · cases rest with
      | nil => simp [closing?, hasBareQuote, isQuote]
      | cons d rest => exact absurd rfl (plain d rest isBackslash)
    · simp [closing?, isQuote, isBackslash, ih]

theorem slicesWhole (cs : List Char) : SlicesWhole cs where
  ternary := ternaryRanges?_utf8 cs
  comparison op := by
    obtain ⟨head, tail, symbol⟩ : ∃ head tail, op.symbol = head :: tail := by
      cases op <;> exact ⟨_, _, rfl⟩
    rw [symbol, sidesRanges?_utf8]
  compared op := by
    rw [comparison?, sides?]
    cases (topLevel op.symbol cs).head? with
    | none => rfl
    | some p =>
      simp only [Option.map_some, Option.filter, Option.bind_eq_bind, Option.bind_some]
      split <;> simp_all
  sum := sumRanges?_utf8 cs
  group := enclosedRange?_utf8 (by decide) (by decide) cs
  unwrapped := by
    cases cs with
    | nil => rfl
    | cons c cs =>
      by_cases isOpening : c = '('
      · subst isOpening
        simp only [unwrap?, enclosed?]
        by_cases ends : cs.getLast? = some ')' <;> simp [ends, Option.filter]
      · simp [unwrap?, enclosed?, isOpening]
  string quote isQuote := by
    have same : between? quote cs = enclosed? quote quote cs := by cases cs <;> rfl
    rw [same, enclosedRange?_utf8 (lt_of_isQuote isQuote) (lt_of_isQuote isQuote)]
  bare quote isQuote := by
    have other : quote ≠ '\\' := by
      rintro rfl
      exact absurd isQuote (by decide)
    rw [closing?_utf8 (lt_of_isQuote isQuote), Option.isSome_map, isSome_closing? other]

/-! ## Parts are slices -/

theorem exists_slice? (stands : part <:+: cs) : ∃ range, slice? cs range = some part := by
  obtain ⟨before, after, rfl⟩ := stands
  have sliced := slice?_offset (before ++ part ++ after) (Nat.le_add_right before.length part.length)
  rw [← length_append, take_left, drop_left] at sliced
  exact ⟨_, sliced⟩

theorem length_le_length_utf8 (cs : List Char) : cs.length ≤ (utf8 cs).length := by
  induction cs with
  | nil => exact Nat.le_refl 0
  | cons c cs ih =>
    have width := c.utf8Size_pos
    simp only [utf8_cons, length_append, String.length_utf8EncodeChar, length_cons]
    omega

theorem length_utf8_lt (within : Within part cs) : (utf8 part).length < (utf8 cs).length := by
  obtain ⟨⟨before, after, rfl⟩, short⟩ := within
  have first := length_le_length_utf8 before
  have last := length_le_length_utf8 after
  simp only [length_append, utf8_append] at short ⊢
  omega

/-- There is one way to give values to all texts such that the value of each is what its form makes
    of the values of its parts. -/
theorem eq_eval?_of_evalStep {scope : Scope} {f : List Char → Option Json}
    (closed : ∀ cs, f cs = evalStep scope f cs) (cs : List Char) : f cs = eval? scope cs := by
  rw [closed, eval?_eq]
  apply evalStep_congr
  intro part member
  have shorter := (within_of_mem_parts member).2
  exact eq_eval?_of_evalStep closed part
termination_by cs.length

/-- Evaluation goes on with shorter texts only, and each is a slice of the text: of what a scan for an
    operator finds, and where a text is cut, nothing lies inside a character.  So each text has a
    value, and only one way of giving values follows the forms. -/
theorem evaluation_cuts_between_characters (scope : Scope) :
    (∀ cs, ∀ part ∈ parts cs, part.length < cs.length ∧ (utf8 part).length < (utf8 cs).length ∧
      ∃ range, slice? cs range = some part) ∧
    (∀ (f g : List Char → Option Json) (cs : List Char), (∀ part ∈ parts cs, f part = g part) →
      evalStep scope f cs = evalStep scope g cs) ∧
    (∀ head tail cs, ScansWell (head :: tail) cs) ∧
    (∀ cs, SlicesWhole cs) ∧
    (∀ cs, eval? scope cs = evalStep scope (eval? scope) cs) ∧
    ∀ f : List Char → Option Json, (∀ cs, f cs = evalStep scope f cs) →
      ∀ code : String, eval scope code = (f code.toList).getD .null := by
  refine ⟨?_, fun f g cs => evalStep_congr, scansWell, slicesWhole, eval?_eq scope, ?_⟩
  · intro cs part member
    have within := within_of_mem_parts member
    exact ⟨within.2, length_utf8_lt within, exists_slice? within.1⟩
  · intro f closed code
    rw [eval, eq_eval?_of_evalStep closed]

end ReactiveView.Expr
