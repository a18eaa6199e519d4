import ReactiveView.Proofs.EvaluatedParts

/-!
# Scans over bytes

Operators and quotes can be looked for in the bytes of a text, without decoding them: a byte that
belongs to a longer character is no bracket, no quote, no backslash, and only the first one can be the
first byte of an operator.  `byteOffsets` is such a scan; after a backslash in a string it takes one
byte along, which may be the first of several.  It finds the positions that the scan over characters
finds (`byteOffsets_utf8`).
-/

namespace ReactiveView.Expr

open List

/-! ## Bytes of a text -/

/-- The bytes of a text in UTF-8. -/
def utf8 (cs : List Char) : List UInt8 := cs.flatMap String.utf8EncodeChar

/-- The byte of a character below 128. -/
def byteOf (c : Char) : UInt8 := UInt8.ofNat c.toNat

theorem utf8_cons (c : Char) (cs : List Char) :
    utf8 (c :: cs) = String.utf8EncodeChar c ++ utf8 cs := flatMap_cons

theorem utf8_append (a b : List Char) : utf8 (a ++ b) = utf8 a ++ utf8 b := flatMap_append

theorem utf8EncodeChar_of_lt {c : Char} (ascii : c.toNat < 128) :
    String.utf8EncodeChar c = [byteOf c] := if_pos (Nat.le_of_lt_succ ascii)

theorem ofUInt8_byteOf {c : Char} (ascii : c.toNat < 128) : Char.ofUInt8 (byteOf c) = c := by
  apply Char.toNat_inj.mp
  change (byteOf c).toUInt32.toNat = c.toNat
  simp [byteOf]
  omega

theorem lt_of_isQuote {quote : Char} (isQuote : Expr.isQuote quote = true) : quote.toNat < 128 := by
  simp only [Expr.isQuote, Bool.or_eq_true, decide_eq_true_eq] at isQuote
  obtain (rfl | rfl) | rfl := isQuote <;> decide

/-- Every byte of a longer character is at least 128. -/
theorem le_of_mem_utf8EncodeChar {c : Char} (long : 128 ≤ c.toNat) {b : UInt8}
    (member : b ∈ String.utf8EncodeChar c) : 128 ≤ (Char.ofUInt8 b).toNat := by
  have long : ¬(c.val.toNat ≤ 127) := Nat.not_le_of_lt long
  change 128 ≤ b.toUInt32.toNat
  simp only [String.utf8EncodeChar, if_neg long] at member
  split at member
  · simp only [mem_cons, not_mem_nil, or_false] at member
    rcases member with rfl | rfl <;> simp <;> omega
  · split at member
    · simp only [mem_cons, not_mem_nil, or_false] at member
      rcases member with rfl | rfl | rfl <;> simp <;> omega
    · simp only [mem_cons, not_mem_nil, or_false] at member
      rcases member with rfl | rfl | rfl | rfl <;> simp <;> omega

/-- The bytes of a character: it is told by the first one if it is below 128, and no later byte
    begins a character. -/
theorem exists_bytes (c : Char) : ∃ b bs, String.utf8EncodeChar c = b :: bs ∧
    b.IsUTF8FirstByte ∧ (∀ d : Char, d.toNat < 128 → (Char.ofUInt8 b = d ↔ c = d)) ∧
    ∀ e ∈ bs, ¬e.IsUTF8FirstByte ∧ 128 ≤ (Char.ofUInt8 e).toNat := by
  obtain ⟨b, bs, bytes⟩ := exists_cons_of_ne_nil (@String.utf8EncodeChar_ne_nil c)
  refine ⟨b, bs, bytes, ?_, ?_, ?_⟩
  · have first := @UInt8.isUTF8FirstByte_getElem_zero_utf8EncodeChar c
    simpa only [bytes, getElem_cons_zero] using first
  · intro d ascii
    by_cases short : c.toNat < 128
    · rw [utf8EncodeChar_of_lt short, List.cons.injEq] at bytes
      rw [← bytes.1, ofUInt8_byteOf short]
    -- all bytes of a longer character are above those of short ones
    · have high := le_of_mem_utf8EncodeChar (Nat.le_of_not_lt short) (bytes ▸ mem_cons_self)
      constructor
      · rintro rfl
        omega
      · rintro rfl
        exact absurd ascii short
  · intro e member
    constructor
    · obtain ⟨i, inside, rfl⟩ := getElem_of_mem member
      have later := @UInt8.isUTF8FirstByte_getElem_utf8EncodeChar c (i + 1)
        (by rw [bytes]; simpa using inside)
      simp only [bytes, getElem_cons_succ, Nat.add_eq_zero_iff, Nat.one_ne_zero, and_false,
        iff_false] at later
      exact later
    · apply le_of_mem_utf8EncodeChar _ (bytes ▸ mem_cons_of_mem b member)
      apply Nat.le_of_not_lt
      intro short
      rw [utf8EncodeChar_of_lt short, List.cons.injEq] at bytes
      simp [← bytes.2] at member

theorem eq_of_utf8EncodeChar_append {c d : Char} {xs ys : List UInt8}
    (same : String.utf8EncodeChar c ++ xs = String.utf8EncodeChar d ++ ys) : c = d := by
  have first := @ByteArray.utf8DecodeChar?_utf8EncodeChar_append xs.toByteArray c
  have second := @ByteArray.utf8DecodeChar?_utf8EncodeChar_append ys.toByteArray d
  rw [← toByteArray_append, same, toByteArray_append, second] at first
  exact (Option.some.inj first).symm

/-- A text begins with another exactly if its bytes do. -/
theorem utf8_prefix_iff {a b : List Char} : utf8 a <+: utf8 b ↔ a <+: b := by
  constructor
  · intro begins
    induction a generalizing b with
    | nil => exact nil_prefix
    | cons c a ih =>
      obtain ⟨after, same⟩ := begins
      cases b with
      | nil => simp [utf8, String.utf8EncodeChar_ne_nil] at same
      | cons d b =>
        rw [utf8_cons, utf8_cons, append_assoc] at same
        obtain rfl := eq_of_utf8EncodeChar_append same
        exact (prefix_cons_inj c).mpr (ih ⟨after, append_cancel_left same⟩)
  · rintro ⟨after, rfl⟩
    exact ⟨utf8 after, (utf8_append a after).symm⟩

/-! ## The scans -/

/-- How many items there are up to the quote that ends a string, that quote included; none if the
    string does not end.  An item after a backslash is `escaped`. -/
def closing? {α : Type} [DecidableEq α] (quote backslash : α) (escaped : Bool) : List α → Option Nat
  | [] => none
  | x :: rest =>
    if escaped then (closing? quote backslash false rest).map (· + 1)
    else if x = quote then some 1
    else (closing? quote backslash (x = backslash) rest).map (· + 1)

/-- Offsets of `op` from offset `i` on. -/
def byteOffsetsFrom (op : List UInt8) (depth : Int) (i : Nat) (bs : List UInt8) : List Nat :=
  match bs with
  | [] => []
  | b :: rest =>
    let c := Char.ofUInt8 b
    if isOpening c then byteOffsetsFrom op (depth + 1) (i + 1) rest
    else if isClosing c then byteOffsetsFrom op (depth - 1) (i + 1) rest
    else if isQuote c then
      let n := (closing? b (byteOf '\\') false rest).getD rest.length
      byteOffsetsFrom op depth (i + 1 + n) (rest.drop n)
    else if depth = 0 ∧ op.isPrefixOf (b :: rest) then
      i :: byteOffsetsFrom op depth (i + 1 + (op.length - 1)) (rest.drop (op.length - 1))
    else byteOffsetsFrom op depth (i + 1) rest
termination_by bs.length
decreasing_by all_goals simp only [length_cons, length_drop]; omega

/-- Offsets of `op` outside strings and brackets, from left to right, without overlaps. -/
def byteOffsets (op bs : List UInt8) : List Nat := byteOffsetsFrom op 0 0 bs

/-- The offset of a position in a text. -/
def offset (cs : List Char) (p : Nat) : Nat := (utf8 (cs.take p)).length

theorem offset_add (cs : List Char) (p q : Nat) :
    offset cs (p + q) = offset cs p + offset (cs.drop p) q := by
  rw [offset, take_add, utf8_append, length_append, offset, offset]

theorem offset_cons (c : Char) (cs : List Char) (p : Nat) :
    offset (c :: cs) (p + 1) = offset cs p + (String.utf8EncodeChar c).length := by
  simp [offset, utf8_cons, Nat.add_comm]

theorem offset_length (cs : List Char) : offset cs cs.length = (utf8 cs).length := by
  rw [offset, take_length]

theorem drop_offset (cs : List Char) (p : Nat) : (utf8 cs).drop (offset cs p) = utf8 (cs.drop p) := by
  conv => lhs; rw [← take_append_drop p cs, utf8_append]
  rw [take_append_drop, offset, drop_left]

/-! ## Strings -/

theorem closing?_append {α : Type} [DecidableEq α] {quote backslash : α} {xs ys : List α}
    (other : ∀ x ∈ xs, x ≠ quote ∧ x ≠ backslash) : closing? quote backslash false (xs ++ ys) =
      (closing? quote backslash false ys).map (· + xs.length) := by
  induction xs with
  | nil => simp
  | cons x xs ih =>
    rw [forall_mem_cons] at other
    simp [closing?, other.1.1, other.1.2, ih other.2, Function.comp_def, Nat.add_assoc]

section Strings

variable {quote : Char} (ascii : quote.toNat < 128)
include ascii

theorem ne_byteOf_of_le {b : UInt8} (high : 128 ≤ (Char.ofUInt8 b).toNat) : b ≠ byteOf quote := by
  rintro rfl
  rw [ofUInt8_byteOf ascii] at high
  omega

theorem ne_byteOf_of_mem {c : Char} (other : c ≠ quote) {b : UInt8}
    (member : b ∈ String.utf8EncodeChar c) : b ≠ byteOf quote := by
  obtain ⟨first, later, bytes, -, told, inside⟩ := exists_bytes c
  rw [bytes, mem_cons] at member
  obtain rfl | member := member
  · rintro rfl
    exact other ((told quote ascii).mp (ofUInt8_byteOf ascii))
  · exact ne_byteOf_of_le ascii (inside b member).2

/-- A string ends in the bytes of a text where it ends in the text. -/
theorem closing?_utf8 (escaped : Bool) (cs : List Char) :
    closing? (byteOf quote) (byteOf '\\') escaped (utf8 cs) =
      (closing? quote '\\' escaped cs).map (offset cs) := by
  have backslash : '\\'.toNat < 128 := by decide
  induction cs generalizing escaped with
  | nil => rfl
  | cons c cs ih =>
    cases escaped with
    | true =>
      -- One byte is taken along, and the other bytes of the character change nothing.
      obtain ⟨b, bs, bytes, -, -, inside⟩ := exists_bytes c
      have other (e : UInt8) (member : e ∈ bs) : e ≠ byteOf quote ∧ e ≠ byteOf '\\' :=
        ⟨ne_byteOf_of_le ascii (inside e member).2, ne_byteOf_of_le backslash (inside e member).2⟩
      simp [closing?, utf8_cons, bytes, closing?_append other, ih, Function.comp_def, offset_cons,
        Nat.add_assoc]
    | false =>
      by_cases isQuote : c = quote
      · subst isQuote
        simp [closing?, offset, utf8, utf8EncodeChar_of_lt ascii]
      by_cases isBackslash : c = '\\'
      · subst isBackslash
        have other : byteOf '\\' ≠ byteOf quote :=
          ne_byteOf_of_mem ascii isQuote (by simp [utf8EncodeChar_of_lt backslash])
        simp [closing?, utf8_cons, offset_cons, utf8EncodeChar_of_lt backslash, isQuote, other, ih,
          Function.comp_def]
      · have other (b : UInt8) (member : b ∈ String.utf8EncodeChar c) :
            b ≠ byteOf quote ∧ b ≠ byteOf '\\' :=
          ⟨ne_byteOf_of_mem ascii isQuote member, ne_byteOf_of_mem backslash isBackslash member⟩
        simp [utf8_cons, closing?_append other, ih, closing?, isQuote, isBackslash, offset_cons,
          Function.comp_def]

end Strings

/-- A scan over characters goes on in code after the quote that ends a string. -/
theorem topLevelFrom_closing (op : List Char) (quote : Char) (depth : Int) (i : Nat) (cs : List Char) :
    topLevelFrom op (.quoted quote) depth 0 i cs =
      let n := (closing? quote '\\' false cs).getD cs.length
      topLevelFrom op .code depth 0 (i + n) (cs.drop n) := by
  -- The scan passes an escaped character without a look at it.
  suffices both : ∀ escaped : Bool,
      topLevelFrom op (if escaped then .escaped quote else .quoted quote) depth 0 i cs =
        let n := (closing? quote '\\' escaped cs).getD cs.length
        topLevelFrom op .code depth 0 (i + n) (cs.drop n) from both false
  induction cs generalizing i with
  | nil => simp [topLevelFrom]
  | cons c cs ih =>
    have next (escaped : Bool) :
        topLevelFrom op (if escaped then .escaped quote else .quoted quote) depth 0 (i + 1) cs =
          let n := ((closing? quote '\\' escaped cs).map (· + 1)).getD (cs.length + 1)
          topLevelFrom op .code depth 0 (i + n) ((c :: cs).drop n) := by
      rw [ih]
      cases closing? quote '\\' escaped cs <;> simp [Nat.add_comm, Nat.add_left_comm]
    intro escaped
    cases escaped with
    | true => exact next false
    | false =>
      by_cases isQuote : c = quote
      · simp [topLevelFrom, closing?, isQuote]
      · have passed := next (c = '\\')
        simpa [topLevelFrom, closing?, isQuote] using passed

/-! ## Operators -/

theorem isMark_eq_false {c : Char} (high : 128 ≤ c.toNat) :
    isOpening c = false ∧ isClosing c = false ∧ isQuote c = false := by
  have other (d : Char) (ascii : d.toNat < 128) : c ≠ d := by
    rintro rfl
    omega
  simp [isOpening, isClosing, isQuote, other]

/-- The bytes after the first one of a character are passed. -/
theorem byteOffsetsFrom_append {first : UInt8} (isFirst : first.IsUTF8FirstByte)
    {op bs : List UInt8} (inside : ∀ e ∈ bs, ¬e.IsUTF8FirstByte ∧ 128 ≤ (Char.ofUInt8 e).toNat)
    (depth : Int) (i : Nat) (after : List UInt8) :
    byteOffsetsFrom (first :: op) depth i (bs ++ after) =
      byteOffsetsFrom (first :: op) depth (i + bs.length) after := by
  induction bs generalizing i with
  | nil => rfl
  | cons e bs ih =>
    rw [forall_mem_cons] at inside
    obtain ⟨noOpening, noClosing, noQuote⟩ := isMark_eq_false inside.1.2
    have other : first ≠ e := by
      rintro rfl
      exact inside.1.1 isFirst
    rw [cons_append, byteOffsetsFrom]
    simp [noOpening, noClosing, noQuote, other, ih inside.2, Nat.add_assoc, Nat.add_comm 1]

section Operators

variable (head : Char) (tail : List Char)

/-- The scan over bytes finds the offsets of the positions that the scan over characters finds. -/
theorem byteOffsetsFrom_utf8 (depth : Int) (i j : Nat) (cs : List Char) :
    byteOffsetsFrom (utf8 (head :: tail)) depth j (utf8 cs) =
      (topLevelFrom (head :: tail) .code depth 0 i cs).map fun p => j + offset cs (p - i) := by
  match cs with
  | [] => simp [utf8, byteOffsetsFrom, topLevelFrom]
  | c :: cs =>
    -- Both scans agree on what follows the first `k` characters.
    have goOn (depth : Int) (k : Nat) :
        byteOffsetsFrom (utf8 (head :: tail)) depth (j + offset (c :: cs) (k + 1))
            (utf8 (cs.drop k)) =
          (topLevelFrom (head :: tail) .code depth 0 (i + (k + 1)) (cs.drop k)).map
            fun p => j + offset (c :: cs) (p - i) := by
      rw [byteOffsetsFrom_utf8 depth (i + (k + 1))]
      apply map_congr_left
      intro p member
      have low := (mem_topLevelFrom member).1
      have apart : p - i = k + 1 + (p - (i + (k + 1))) := by omega
      rw [apart, offset_add (c :: cs) (k + 1), drop_succ_cons]
      omega
    obtain ⟨b, bs, bytes, -, told, inside⟩ := exists_bytes c
    obtain ⟨first, others, isHead, isFirst, -⟩ := exists_bytes head
    have opBytes : utf8 (head :: tail) = first :: (others ++ utf8 tail) := by
      rw [utf8_cons, isHead, cons_append]
    have text : utf8 (c :: cs) = b :: (bs ++ utf8 cs) := by rw [utf8_cons, bytes, cons_append]
    have next (depth : Int) :
        byteOffsetsFrom (utf8 (head :: tail)) depth (j + 1) (bs ++ utf8 cs) =
          (topLevelFrom (head :: tail) .code depth 0 (i + 1) cs).map
            fun p => j + offset (c :: cs) (p - i) := by
      have after := goOn depth 0
      rw [offset_cons, bytes] at after
      rw [opBytes, byteOffsetsFrom_append isFirst inside, ← opBytes]
      simpa [offset, utf8, Nat.add_assoc, Nat.add_comm 1] using after
    have stands : (utf8 (head :: tail)).isPrefixOf (utf8 (c :: cs)) =
        (head :: tail).isPrefixOf (c :: cs) := by
      rw [Bool.eq_iff_iff, isPrefixOf_iff_prefix, isPrefixOf_iff_prefix, utf8_prefix_iff]
    have sameKind : isOpening (Char.ofUInt8 b) = isOpening c ∧
        isClosing (Char.ofUInt8 b) = isClosing c ∧ isQuote (Char.ofUInt8 b) = isQuote c := by
      simp [isOpening, isClosing, isQuote, told]
    rw [text, byteOffsetsFrom]
    simp only [topLevelFrom, sameKind, ← text, stands]
    split
    · exact next (depth + 1)
    split
    · exact next (depth - 1)
    split
    next isString =>
      have ascii := lt_of_isQuote isString
      rw [utf8EncodeChar_of_lt ascii, List.cons.injEq] at bytes
      obtain ⟨rfl, rfl⟩ := bytes
      have after := goOn depth ((closing? c '\\' false cs).getD cs.length)
      rw [offset_cons, utf8EncodeChar_of_lt ascii] at after
      rw [nil_append, closing?_utf8 ascii, ← offset_length, Option.getD_map, drop_offset,
        topLevelFrom_closing]
      simpa [Nat.add_assoc, Nat.add_comm 1] using after
    split
    next found =>
      have begins := prefix_iff_eq_take.mp (List.isPrefixOf_iff_prefix.mp found.2)
      obtain ⟨w, width⟩ : ∃ w, (utf8 (head :: tail)).length = w + 1 :=
        ⟨_, by rw [opBytes, length_cons]⟩
      have reach : offset (c :: cs) (tail.length + 1) = w + 1 := by
        rw [offset, ← length_cons, ← begins, width]
      have rest := drop_offset (c :: cs) (tail.length + 1)
      rw [reach, text, drop_succ_cons, drop_succ_cons] at rest
      have after := goOn depth tail.length
      rw [reach] at after
      rw [width, map_cons, topLevelFrom_skip, Nat.add_sub_cancel, rest]
      simpa [offset, utf8, Nat.add_assoc, Nat.add_comm 1] using after
    · exact next depth
termination_by cs.length
decreasing_by simp only [length_cons, length_drop]; omega

/-- The offsets that the scan over bytes finds are those of the positions in the text. -/
theorem byteOffsets_utf8 (cs : List Char) : byteOffsets (utf8 (head :: tail)) (utf8 cs) =
    (topLevel (head :: tail) cs).map (offset cs) := by
  simpa [byteOffsets, topLevel] using byteOffsetsFrom_utf8 head tail 0 0 0 cs

/-- Occurrences of an operator do not overlap. -/
theorem pairwise_topLevelFrom (mode : ScanMode) (depth : Int) (skip i : Nat) (cs : List Char) :
    (topLevelFrom (head :: tail) mode depth skip i cs).Pairwise
      fun p q => p + (head :: tail).length ≤ q := by
  induction cs generalizing mode depth skip i with
  | nil => simp [topLevelFrom]
  | cons c cs ih =>
    cases mode with
    | escaped quote => exact ih ..
    | quoted quote => exact ih ..
    | code =>
      cases skip with
      | succ skip => exact ih ..
      | zero =>
        simp only [topLevelFrom]
        split
        · exact ih ..
        split
        · exact ih ..
        split
        · exact ih ..
        split
        -- the rest of the operator is skipped, so the next one starts behind it
        · refine pairwise_cons.mpr ⟨?_, ih ..⟩
          intro q member
          rw [topLevelFrom_skip] at member
          have low := (mem_topLevelFrom member).1
          simp only [length_cons] at low ⊢
          omega
        · exact ih ..

end Operators

end ReactiveView.Expr
