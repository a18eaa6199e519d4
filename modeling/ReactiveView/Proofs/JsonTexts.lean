import ReactiveView.Json.Writer
import ReactiveView.Proofs.WrittenValues

/-!
# Reading what was written

The compact text of a tidy value is read as the document of the value, except that a container
inside 127 others is read as a piece without a value (`doc?_chars`, `toDocAt`).  So a text says
which value it was written from (`compact_inj`), at any depth.
-/

namespace ReactiveView.Json

open List

/-! ## Texts of values -/

-- `chars` is not unfolded below: comparing the strings of its literals takes long.
theorem chars_null : null.chars = ['n', 'u', 'l', 'l'] := by decide

theorem chars_true : (bool true).chars = ['t', 'r', 'u', 'e'] := by decide

theorem chars_false : (bool false).chars = ['f', 'a', 'l', 's', 'e'] := by decide

theorem chars_natCast (n : Nat) : (num (.int n)).chars = Nat.toDigits 10 n := by
  change (Number.int n).text.toList = _
  simp [Number.text, toString, Int.repr, Nat.toList_repr]

theorem chars_arr (items : List Json) : (arr items).chars = '[' :: (itemChars items ++ [']']) := rfl

theorem chars_obj (ms : List (String × Json)) :
    (obj ms).chars = '{' :: (memberChars ms ++ ['}']) := rfl

theorem quote_append (s rest : List Char) :
    quote s ++ rest = '"' :: (s.flatMap escapeChar ++ '"' :: rest) := by
  simp [quote]

/-- What follows the first item of an array. -/
def itemTail : List Json → List Char
  | [] => []
  | v :: vs => ',' :: itemChars (v :: vs)

/-- What follows the first member of an object. -/
def memberTail : List (String × Json) → List Char
  | [] => []
  | m :: ms => ',' :: memberChars (m :: ms)

theorem itemChars_cons (v : Json) (vs : List Json) :
    itemChars (v :: vs) = v.chars ++ itemTail vs := by
  cases vs <;> simp [itemChars, itemTail]

theorem memberChars_cons (k : String) (v : Json) (ms : List (String × Json)) :
    memberChars ((k, v) :: ms) = quote k.toList ++ ':' :: (v.chars ++ memberTail ms) := by
  cases ms <;> simp [memberChars, memberTail]

/-! ## Strings -/

/-- A character is written as its short escape, by its code, or as it is. -/
theorem escapeChar_cases (c : Char) :
    (∃ e, escapeChar c = ['\\', e] ∧ escape? e = some c ∧ e ≠ 'u' ∧ 32 ≤ e.toNat) ∨
    (escapeChar c = ['\\', 'u', '0', '0', hexDigit (c.toNat / 16), hexDigit c.toNat] ∧
      c.toNat < 32) ∨
    (escapeChar c = [c] ∧ c ≠ '"' ∧ c ≠ '\\' ∧ 32 ≤ c.toNat) := by
  rcases eq_or_ne c '"' with rfl | notQuote
  · exact .inl ⟨'"', rfl, rfl, by decide, by decide⟩
  rcases eq_or_ne c '\\' with rfl | notBackslash
  · exact .inl ⟨'\\', rfl, rfl, by decide, by decide⟩
  rcases eq_or_ne c '\n' with rfl | notNewline
  · exact .inl ⟨'n', rfl, rfl, by decide, by decide⟩
  rcases eq_or_ne c '\r' with rfl | notReturn
  · exact .inl ⟨'r', rfl, rfl, by decide, by decide⟩
  rcases eq_or_ne c '\t' with rfl | notTab
  · exact .inl ⟨'t', rfl, rfl, by decide, by decide⟩
  rcases eq_or_ne c (Char.ofNat 8) with rfl | notBack
  · exact .inl ⟨'b', rfl, rfl, by decide, by decide⟩
  rcases eq_or_ne c (Char.ofNat 12) with rfl | notFeed
  · exact .inl ⟨'f', rfl, rfl, by decide, by decide⟩
  rw [escapeChar, if_neg notQuote, if_neg notBackslash, if_neg notNewline, if_neg notReturn,
    if_neg notTab, if_neg notBack, if_neg notFeed]
  rcases Nat.lt_or_ge c.toNat 32 with isControl | isVisible
  · rw [if_pos isControl]
    exact .inr (.inl ⟨rfl, isControl⟩)
  · rw [if_neg (Nat.not_lt.mpr isVisible)]
    exact .inr (.inr ⟨rfl, notQuote, notBackslash, isVisible⟩)

variable {n : Nat} {c d : Char} {ds rest : List Char} {v : Json}

theorem hex4?_hexDigit (small : n < 32) :
    hex4? '0' '0' (hexDigit (n / 16)) (hexDigit n) = some n := by
  revert n
  decide

theorem ofCode_toNat (small : c.toNat < 32) : StringUnit.ofCode c.toNat = .char c := by
  rw [StringUnit.ofCode, if_neg (by omega), if_neg (by omega), Char.ofNat_toNat]

theorem stringUnits?_escapeChar (c : Char) (rest : List Char) :
    stringUnits? (escapeChar c ++ rest) =
      (stringUnits? rest).map fun (us, after) => (.char c :: us, after) := by
  have unfolded : ∀ x : Option (List StringUnit × List Char),
      (x.bind fun (us, after) => some (StringUnit.char c :: us, after)) =
        x.map fun (us, after) => (.char c :: us, after) := by
    intro x
    cases x <;> rfl
  rw [← unfolded]
  rcases escapeChar_cases c with ⟨e, escaped, isEscape, notCode, _⟩ | ⟨escaped, isControl⟩ |
    ⟨escaped, notQuote, notBackslash, isVisible⟩
  · rw [escaped, cons_append, cons_append, nil_append, stringUnits?, isEscape]
    · rfl
    · exact fun _ _ _ _ _ isCode => (notCode isCode).elim
  · simp [escaped, stringUnits?, hex4?_hexDigit isControl, ofCode_toNat isControl]
  · simp [escaped, stringUnits?, notBackslash, Nat.not_lt.mpr isVisible]

theorem stringUnits?_flatMap (s rest : List Char) :
    stringUnits? (s.flatMap escapeChar ++ '"' :: rest) = some (s.map .char, rest) := by
  induction s with
  | nil => rfl
  | cons c s ih =>
    rw [flatMap_cons, append_assoc, stringUnits?_escapeChar, ih]
    rfl

theorem joinUnits?_chars (s : List Char) : joinUnits? (s.map .char) = some s := by
  induction s with
  | nil => rfl
  | cons c s ih => rw [map_cons, joinUnits?, ih, Option.map_some]

theorem string?_flatMap (s : String) (rest : List Char) :
    string? (s.toList.flatMap escapeChar ++ '"' :: rest) = some (some s, rest) := by
  simp [string?, stringUnits?_flatMap, joinUnits?_chars]

/-! ## Numbers -/

/-- Nothing follows, or what may follow a value inside a container. -/
def Ends (rest : List Char) : Prop := ∀ c ∈ rest.head?, c ∈ [',', ']', '}']

theorem le_ofDigitChars (ds : List Char) (word : Nat) : word ≤ Nat.ofDigitChars 10 ds word := by
  rw [Nat.ofDigitChars_eq_ofDigitChars_zero]
  exact Nat.le_add_right_of_le (Nat.le_mul_of_pos_left _ (Nat.pow_pos (by decide)))

theorem collect_of_le {word : Nat} (fits : Nat.ofDigitChars 10 ds word ≤ maxWord) :
    collect word ds = (Nat.ofDigitChars 10 ds word, 0) := by
  induction ds generalizing word with
  | nil => rfl
  | cons d ds ih =>
    rw [Nat.ofDigitChars_cons, Nat.mul_comm] at fits ⊢
    rw [collect, if_pos (Nat.le_trans (le_ofDigitChars ds _) fits), ih fits]

theorem head?_toDigits_ne_zero (pos : 0 < n) : (Nat.toDigits 10 n).head? ≠ some '0' := by
  induction n using Nat.strongRecOn with
  | ind n ih =>
    rw [Nat.toDigits_eq_if (by decide)]
    split
    · rename_i small
      have digits : ∀ n < 10, 0 < n → [Nat.digitChar n].head? ≠ some '0' := by decide
      exact digits n small pos
    · have before := ih (n / 10) (by omega) (by omega)
      rwa [List.head?_append_of_ne_nil _ Nat.toDigits_ne_nil]

theorem digits_append (each : ∀ d ∈ ds, d.isDigit = true) (ends : Ends rest) :
    digits (ds ++ rest) = (ds, rest) := by
  have stops : rest.takeWhile Char.isDigit = [] ∧ rest.dropWhile Char.isDigit = rest := by
    cases rest with
    | nil => exact ⟨rfl, rfl⟩
    | cons c rest =>
      have notDigit : c.isDigit = false := by
        have listed := ends c rfl
        simp only [mem_cons, not_mem_nil, or_false] at listed
        rcases listed with rfl | rfl | rfl <;> decide
      simp [notDigit]
  rw [digits, takeWhile_append_of_pos each, dropWhile_append_of_pos each, stops.1, stops.2,
    append_nil]

theorem numberText?_digits (neg : Bool) (each : ∀ c ∈ d :: ds, c.isDigit = true)
    (leading : d = '0' → ds = []) (ends : Ends rest) :
    numberText? ((if neg then ['-'] else []) ++ (d :: ds ++ rest)) =
      some (⟨neg, d :: ds, none, none⟩, rest) := by
  have read := digits_append each ends
  have unsigned : d ≠ '-' := by
    rintro rfl
    exact absurd (each '-' mem_cons_self) (by decide)
  rw [cons_append] at read ⊢
  cases rest with
  | nil =>
    rw [append_nil] at read ⊢
    cases neg <;> simpa [numberText?, unsigned, read] using leading
  | cons c rest =>
    have listed := ends c rfl
    simp only [mem_cons, not_mem_nil, or_false] at listed
    cases neg <;> rcases listed with rfl | rfl | rfl <;>
      simpa [numberText?, unsigned, read] using leading

theorem toDigits_start (n : Nat) : ∃ d ds, Nat.toDigits 10 n = d :: ds ∧ d.isDigit = true := by
  obtain ⟨d, ds, shape⟩ := exists_cons_of_ne_nil (Nat.toDigits_ne_nil (n := n) (b := 10))
  have member : d ∈ Nat.toDigits 10 n := shape ▸ mem_cons_self
  exact ⟨d, ds, shape, Nat.isDigit_of_mem_toDigits (by decide) (by decide) member⟩

theorem numberText?_toDigits (neg : Bool) (n : Nat) (ends : Ends rest) :
    numberText? ((if neg then ['-'] else []) ++ (Nat.toDigits 10 n ++ rest)) =
      some (⟨neg, Nat.toDigits 10 n, none, none⟩, rest) := by
  have isDigit : ∀ d ∈ Nat.toDigits 10 n, d.isDigit = true := fun d member =>
    Nat.isDigit_of_mem_toDigits (by decide) (by decide) member
  obtain ⟨d, ds, shape, _⟩ := toDigits_start n
  have leading : d = '0' → ds = [] := by
    rintro rfl
    rcases Nat.eq_zero_or_pos n with rfl | pos
    · exact (List.cons.inj shape).2.symm
    · exact absurd (congrArg List.head? shape) (head?_toDigits_ne_zero pos)
  rw [shape] at isDigit ⊢
  exact numberText?_digits neg isDigit leading ends

theorem collect_toDigits (fits : n ≤ maxWord) : collect 0 (Nat.toDigits 10 n) = (n, 0) := by
  rw [collect_of_le] <;> rw [Nat.ofDigitChars_ten_toDigits]
  exact fits

theorem number?_toDigits (fits : n ≤ maxWord) :
    (NumberText.mk false (Nat.toDigits 10 n) none none).number? = some (.int n) := by
  simp [NumberText.number?, collect_toDigits fits]

/-! ## Documents -/

mutual

/-- The document of a value inside `depth` containers: a container inside too many others has no
    value any more. -/
def toDocAt (depth : Nat) : Json → Doc
  | .null => .null
  | .bool b => .bool b
  | .num n => .num n
  | .str s => .str s
  | .arr items => if nestingLimit ≤ depth then .beyond else .arr (itemsToDocAt (depth + 1) items)
  | .obj ms => if nestingLimit ≤ depth then .beyond else .obj (membersToDocAt (depth + 1) ms)

/-- The documents of the items of an array. -/
def itemsToDocAt (depth : Nat) : List Json → List Doc
  | [] => []
  | v :: vs => v.toDocAt depth :: itemsToDocAt depth vs

/-- The members of an object with their documents. -/
def membersToDocAt (depth : Nat) : List (String × Json) → List (Option String × Doc)
  | [] => []
  | (k, v) :: ms => (some k, v.toDocAt depth) :: membersToDocAt depth ms

end

theorem itemsToDocAt_eq_map (depth : Nat) (items : List Json) :
    itemsToDocAt depth items = items.map (·.toDocAt depth) := by
  induction items with
  | nil => rfl
  | cons v vs ih => rw [itemsToDocAt, ih, map_cons]

theorem membersToDocAt_eq_map (depth : Nat) (ms : List (String × Json)) :
    membersToDocAt depth ms = ms.map fun m => (some m.1, m.2.toDocAt depth) := by
  induction ms with
  | nil => rfl
  | cons m ms ih => rw [membersToDocAt, ih, map_cons]

theorem skipSpace_cons (visible : isSpace c = false) (cs : List Char) :
    skipSpace (c :: cs) = c :: cs := by
  simp [skipSpace, visible]

theorem isSpace_of_isDigit (isDigit : d.isDigit = true) : isSpace d = false := by
  simp only [isSpace, Bool.or_eq_false_iff, decide_eq_false_iff_not]
  refine ⟨⟨⟨?_, ?_⟩, ?_⟩, ?_⟩ <;> (rintro rfl; exact absurd isDigit (by decide))

theorem doc?_number {cs : List Char} (starts : c = '-' ∨ c.isDigit = true) (depth fuel : Nat) :
    doc? depth (fuel + 1) (c :: cs) =
      (numberText? (c :: cs)).map fun (t, rest) => ((t.number?.map Doc.num).getD .beyond, rest) := by
  have visible : isSpace c = false := by
    obtain rfl | isDigit := starts
    · decide
    · exact isSpace_of_isDigit isDigit
  rw [doc?, skipSpace_cons visible]
  -- neither a minus nor a digit starts any of the other values
  dsimp only
  split <;> first | rfl | exact absurd starts (by decide)

/-- A negative integer is read whatever follows. -/
theorem doc?_negative (pos : 0 < n) (fits : n ≤ 9223372036854775808) (depth fuel : Nat)
    (ends : Ends rest) :
    doc? depth (fuel + 1) ('-' :: (Nat.toDigits 10 n ++ rest)) =
      some (.num (.int (-(n : Int))), rest) := by
  have word := collect_toDigits (Nat.le_trans fits (by decide))
  have number : (NumberText.mk true (Nat.toDigits 10 n) none none).number? = some (.int (-(n : Int))) := by
    simp [NumberText.number?, word, pos, fits]
  have read := numberText?_toDigits true n ends
  simp only [if_true, singleton_append] at read
  rw [doc?_number (.inl rfl), read]
  simp [number]

/-- A value starts with a visible character that closes no array. -/
theorem chars_start : ∀ v : Json, v.IsTidy →
    ∃ c cs, v.chars = c :: cs ∧ isSpace c = false ∧ c ≠ ']'
  | .null, _ => ⟨'n', _, chars_null, by decide, by decide⟩
  | .bool true, _ => ⟨'t', _, chars_true, by decide, by decide⟩
  | .bool false, _ => ⟨'f', _, chars_false, by decide, by decide⟩
  | .str _, _ => ⟨'"', _, rfl, by decide, by decide⟩
  | .arr _, _ => ⟨'[', _, rfl, by decide, by decide⟩
  | .obj _, _ => ⟨'{', _, rfl, by decide, by decide⟩
  | .num n, tidy => by
    obtain ⟨k, _, rfl⟩ := tidy
    obtain ⟨d, ds, shape, isDigit⟩ := toDigits_start k
    refine ⟨d, ds, by rw [chars_natCast, shape], isSpace_of_isDigit isDigit, ?_⟩
    rintro rfl
    exact absurd isDigit (by decide)

theorem length_chars_pos (tidy : v.IsTidy) : 0 < v.chars.length := by
  obtain ⟨c, cs, shape, _⟩ := chars_start v tidy
  simp [shape]

theorem doc?_array {depth fuel : Nat} {cs : List Char} {docs : List Doc}
    (visible : isSpace c = false) (inside : c ≠ ']')
    (read : items? (depth + 1) fuel (c :: cs) = some (docs, rest)) :
    doc? depth (fuel + 1) ('[' :: c :: cs) =
      some (if nestingLimit ≤ depth then .beyond else .arr docs, rest) := by
  rw [doc?, skipSpace_cons (by decide)]
  simp [skipSpace_cons visible, inside, read]

-- The reader spends one unit of fuel on each value and one on each step along a list, and both take
-- at least a character, so twice the length is enough.
mutual

/-- The text of a tidy value is read as its document, whatever follows. -/
theorem doc?_chars : ∀ v : Json, v.IsTidy → ∀ (depth fuel : Nat) (rest : List Char), Ends rest →
    2 * v.chars.length ≤ fuel + 1 →
    doc? depth fuel (v.chars ++ rest) = some (v.toDocAt depth, rest)
  | v, tidy, _, 0, _, _, enough => by
    have := length_chars_pos tidy
    omega
  | .null, _, depth, fuel + 1, rest, _, _ => by
    simp [doc?, chars_null, skipSpace, isSpace, after?, toDocAt]
    rfl
  | .bool true, _, depth, fuel + 1, rest, _, _ => by
    simp [doc?, chars_true, skipSpace, isSpace, after?, toDocAt]
    rfl
  | .bool false, _, depth, fuel + 1, rest, _, _ => by
    simp [doc?, chars_false, skipSpace, isSpace, after?, toDocAt]
    rfl
  | .num n, tidy, depth, fuel + 1, rest, ends, _ => by
    obtain ⟨k, fits, rfl⟩ := tidy
    obtain ⟨d, ds, shape, isDigit⟩ := toDigits_start k
    have read := numberText?_toDigits false k ends
    have number := number?_toDigits fits
    rw [chars_natCast]
    simp only [Bool.false_eq_true, if_false, nil_append] at read
    rw [shape] at read number ⊢
    rw [cons_append] at read ⊢
    rw [doc?_number (.inr isDigit), read]
    simp [number, toDocAt]
  | .str s, _, depth, fuel + 1, rest, _, _ => by
    change doc? depth (fuel + 1) (quote s.toList ++ rest) = _
    rw [quote_append]
    simp [doc?, skipSpace, isSpace, string?_flatMap, toDocAt]
  | .arr [], _, depth, fuel + 1, rest, _, _ => by
    simp [doc?, chars_arr, itemChars, skipSpace, isSpace, toDocAt, itemsToDocAt]
  | .arr (v :: vs), tidy, depth, fuel + 1, rest, _, enough => by
    simp only [chars_arr, length_append, length_cons] at enough
    have read := items?_itemChars (v :: vs) tidy (by simp) (depth + 1) fuel rest (by omega)
    -- the first item does not start with `]`, so the array is not taken for an empty one
    obtain ⟨c, cs, starts, visible, inside⟩ := chars_start v tidy.1
    rw [itemChars_cons, starts, cons_append, cons_append] at read
    rw [chars_arr, itemChars_cons, starts]
    simpa [toDocAt] using doc?_array visible inside read
  | .obj [], _, depth, fuel + 1, rest, _, _ => by
    simp [doc?, chars_obj, memberChars, skipSpace, isSpace, toDocAt, membersToDocAt]
  | .obj ((k, v) :: ms), tidy, depth, fuel + 1, rest, _, enough => by
    simp only [chars_obj, length_append, length_cons] at enough
    have read := members?_memberChars ((k, v) :: ms) tidy.2 (by simp) (depth + 1) fuel rest (by omega)
    rw [memberChars_cons, quote_append] at read
    simp only [cons_append, append_assoc] at read
    rw [chars_obj, memberChars_cons, quote_append]
    simp [doc?, skipSpace, isSpace, read, toDocAt]

theorem items?_itemChars : ∀ items : List Json, ItemsTidy items → items ≠ [] →
    ∀ (depth fuel : Nat) (rest : List Char), 2 * (itemChars items).length ≤ fuel →
    items? depth fuel (itemChars items ++ ']' :: rest) = some (itemsToDocAt depth items, rest)
  | [], _, notEmpty, _, _, _, _ => absurd rfl notEmpty
  | [v], tidy, _, depth, 0, rest, enough => by
    have := length_chars_pos tidy.1
    rw [itemChars] at enough
    omega
  | [v], tidy, _, depth, fuel + 1, rest, enough => by
    have read := doc?_chars v tidy.1 depth fuel (']' :: rest) (by simp [Ends])
      (by rw [itemChars] at enough; omega)
    simp [items?, itemChars, read, skipSpace, isSpace, itemsToDocAt]
  | v :: w :: vs, tidy, _, depth, 0, rest, enough => by
    simp only [itemChars, length_append, length_cons] at enough
    omega
  | v :: w :: vs, tidy, _, depth, fuel + 1, rest, enough => by
    simp only [itemChars, length_append, length_cons] at enough
    have first := doc?_chars v tidy.1 depth fuel (',' :: (itemChars (w :: vs) ++ ']' :: rest))
      (by simp [Ends]) (by omega)
    have others := items?_itemChars (w :: vs) tidy.2 (by simp) depth fuel rest (by omega)
    rw [itemChars, append_assoc, cons_append, items?, first, itemsToDocAt]
    · simp [skipSpace, isSpace, others]
    · simp

theorem members?_memberChars : ∀ ms : List (String × Json), MembersTidy ms → ms ≠ [] →
    ∀ (depth fuel : Nat) (rest : List Char), 2 * (memberChars ms).length ≤ fuel →
    members? depth fuel (memberChars ms ++ '}' :: rest) = some (membersToDocAt depth ms, rest)
  | [], _, notEmpty, _, _, _, _ => absurd rfl notEmpty
  | [(k, v)], tidy, _, depth, 0, rest, enough => by
    simp only [memberChars, length_append, length_cons] at enough
    omega
  | [(k, v)], tidy, _, depth, fuel + 1, rest, enough => by
    simp only [memberChars, length_append, length_cons] at enough
    have key := string?_flatMap k (':' :: (chars v ++ '}' :: rest))
    have read := doc?_chars v tidy.1 depth fuel ('}' :: rest) (by simp [Ends]) (by omega)
    simp [members?, memberChars, quote, key, read, skipSpace, isSpace, membersToDocAt]
  | (k, v) :: m :: ms, tidy, _, depth, 0, rest, enough => by
    simp only [memberChars, length_append, length_cons] at enough
    omega
  | (k, v) :: m :: ms, tidy, _, depth, fuel + 1, rest, enough => by
    simp only [memberChars, length_append, length_cons] at enough
    have key := string?_flatMap k (':' :: (chars v ++ ',' :: (memberChars (m :: ms) ++ '}' :: rest)))
    have first := doc?_chars v tidy.1 depth fuel (',' :: (memberChars (m :: ms) ++ '}' :: rest))
      (by simp [Ends]) (by omega)
    have others := members?_memberChars (m :: ms) tidy.2 (by simp) depth fuel rest (by omega)
    simp [members?, memberChars, quote, key, first, others, skipSpace, isSpace, membersToDocAt]

end

theorem toList_compact (v : Json) : v.compact.toList = v.chars := String.toList_ofList

/-- The whole text of a tidy value is read as its document. -/
theorem read?_compact (tidy : v.IsTidy) : Doc.read? v.compact.toList = some (v.toDocAt 0) := by
  have read := doc?_chars v tidy 0 (2 * v.chars.length + 2) [] (by simp [Ends]) (by omega)
  rw [append_nil] at read
  rw [toList_compact, Doc.read?, read]
  rfl

/-! ## Depth -/

mutual

/-- A value that is not too deep is read as it was written. -/
theorem toDocAt_eq_toDoc : ∀ (v : Json) (depth : Nat), depth + v.nesting ≤ nestingLimit →
    v.toDocAt depth = v.toDoc
  | .null, _, _ | .bool _, _, _ | .num _, _, _ | .str _, _, _ => rfl
  | .arr items, depth, shallow => by
    rw [nesting] at shallow
    rw [toDocAt, if_neg (by omega), itemsToDocAt_eq items (depth + 1) (by omega), toDoc]
  | .obj ms, depth, shallow => by
    rw [nesting] at shallow
    rw [toDocAt, if_neg (by omega), membersToDocAt_eq ms (depth + 1) (by omega), toDoc]

theorem itemsToDocAt_eq : ∀ (items : List Json) (depth : Nat),
    depth + itemsNesting items ≤ nestingLimit → itemsToDocAt depth items = itemsToDoc items
  | [], _, _ => rfl
  | v :: vs, depth, shallow => by
    rw [itemsNesting] at shallow
    rw [itemsToDocAt, toDocAt_eq_toDoc v depth (by omega), itemsToDocAt_eq vs depth (by omega),
      itemsToDoc]

theorem membersToDocAt_eq : ∀ (ms : List (String × Json)) (depth : Nat),
    depth + membersNesting ms ≤ nestingLimit → membersToDocAt depth ms = membersToDoc ms
  | [], _, _ => rfl
  | (k, v) :: ms, depth, shallow => by
    rw [membersNesting] at shallow
    rw [membersToDocAt, toDocAt_eq_toDoc v depth (by omega),
      membersToDocAt_eq ms depth (by omega), membersToDoc]

end

mutual

/-- What is read has a value only if nothing in it was too deep. -/
theorem nesting_le_of_toJson? : ∀ (v : Json) (depth : Nat),
    (∃ w, (v.toDocAt depth).toJson? = some w) → v.nesting ≤ nestingLimit - depth
  | .null, _, _ | .bool _, _, _ | .num _, _, _ | .str _, _, _ => Nat.zero_le _
  | .arr items, depth, ⟨w, value⟩ => by
    rw [toDocAt] at value
    split at value
    · cases value
    · obtain ⟨ws, inside, _⟩ := Option.map_eq_some_iff.mp value
      have := itemsNesting_le_of_toJson? items (depth + 1) (Doc.exists_itemsToJson?_iff.mp ⟨ws, inside⟩)
      rw [nesting]
      omega
  | .obj ms, depth, ⟨w, value⟩ => by
    rw [toDocAt] at value
    split at value
    · cases value
    · obtain ⟨ws, inside, _⟩ := Option.map_eq_some_iff.mp value
      have := membersNesting_le_of_toJson? ms (depth + 1)
        (Doc.exists_membersToJson?_iff.mp ⟨ws, inside⟩)
      rw [nesting]
      omega

theorem itemsNesting_le_of_toJson? : ∀ (items : List Json) (depth : Nat),
    (∀ d ∈ itemsToDocAt depth items, ∃ w, d.toJson? = some w) →
    itemsNesting items ≤ nestingLimit - depth
  | [], _, _ => Nat.zero_le _
  | v :: vs, depth, values => by
    rw [itemsToDocAt, forall_mem_cons] at values
    exact Nat.max_le.mpr ⟨nesting_le_of_toJson? v depth values.1,
      itemsNesting_le_of_toJson? vs depth values.2⟩

theorem membersNesting_le_of_toJson? : ∀ (ms : List (String × Json)) (depth : Nat),
    (∀ entry ∈ membersToDocAt depth ms,
      (∃ key, entry.1 = some key) ∧ ∃ w, entry.2.toJson? = some w) →
    membersNesting ms ≤ nestingLimit - depth
  | [], _, _ => Nat.zero_le _
  | (k, v) :: ms, depth, values => by
    rw [membersToDocAt, forall_mem_cons] at values
    exact Nat.max_le.mpr ⟨nesting_le_of_toJson? v depth values.1.2,
      membersNesting_le_of_toJson? ms depth values.2⟩

end

/-! ## Texts of different values -/

theorem ends_itemTail (vs : List Json) : Ends (itemTail vs) := by
  cases vs <;> simp [Ends, itemTail]

theorem ends_memberTail (ms : List (String × Json)) : Ends (memberTail ms) := by
  cases ms <;> simp [Ends, memberTail]

/-- One text is read in one way. -/
theorem toDocAt_eq_of_chars_eq {w : Json} {rest' : List Char} (tidy : v.IsTidy) (tidy' : w.IsTidy)
    (ends : Ends rest) (ends' : Ends rest') (same : v.chars ++ rest = w.chars ++ rest') :
    v.toDocAt 0 = w.toDocAt 0 ∧ rest = rest' := by
  have read := doc?_chars v tidy 0 (2 * v.chars.length + 2 * w.chars.length) rest ends (by omega)
  have read' := doc?_chars w tidy' 0 (2 * v.chars.length + 2 * w.chars.length) rest' ends' (by omega)
  rw [same, read'] at read
  have both := Option.some.inj read
  exact ⟨(congrArg Prod.fst both).symm, (congrArg Prod.snd both).symm⟩

mutual

/-- A text says which value it starts with.  The document that is read says so for everything but
    what is inside containers, where it may be cut off. -/
theorem chars_inj : ∀ v : Json, v.IsTidy → ∀ w : Json, w.IsTidy → ∀ rest rest', Ends rest →
    Ends rest' → v.chars ++ rest = w.chars ++ rest' → v = w ∧ rest = rest'
  | v, tidy, w, tidy', rest, rest', ends, ends', same => by
    -- reading settles what follows and the kind of value
    obtain ⟨docs, rests⟩ := toDocAt_eq_of_chars_eq tidy tidy' ends ends' same
    subst rests
    refine ⟨?_, rfl⟩
    replace same := append_cancel_right same
    cases v with
    | arr items =>
      cases w with
      | arr items' =>
        rw [itemChars_inj items tidy items' tidy' (by simpa [chars_arr] using same)]
      | _ => simp [toDocAt, nestingLimit] at docs
    | obj ms =>
      cases w with
      | obj ms' =>
        rw [memberChars_inj ms tidy.2 ms' tidy'.2 (by simpa [chars_obj] using same)]
      | _ => simp [toDocAt, nestingLimit] at docs
    | _ =>
      cases w <;> simp_all [toDocAt, nestingLimit]

theorem itemChars_inj : ∀ vs : List Json, ItemsTidy vs → ∀ ws : List Json, ItemsTidy ws →
    itemChars vs = itemChars ws → vs = ws
  | [], _, [], _, _ => rfl
  | [], _, w :: ws, tidy', same => by
    have := length_chars_pos tidy'.1
    have lengths := congrArg List.length same
    rw [itemChars_cons, length_append, itemChars, length_nil] at lengths
    omega
  | v :: vs, tidy, [], _, same => by
    have := length_chars_pos tidy.1
    have lengths := congrArg List.length same
    rw [itemChars_cons, length_append, itemChars, length_nil] at lengths
    omega
  | v :: vs, tidy, w :: ws, tidy', same => by
    rw [itemChars_cons, itemChars_cons] at same
    obtain ⟨rfl, tails⟩ := chars_inj v tidy.1 w tidy'.1 _ _ (ends_itemTail vs) (ends_itemTail ws) same
    congr 1
    cases vs with
    | nil =>
      cases ws with
      | nil => rfl
      | cons => cases tails
    | cons =>
      cases ws with
      | nil => cases tails
      | cons => exact itemChars_inj _ tidy.2 _ tidy'.2 (List.cons.inj tails).2

theorem memberChars_inj : ∀ ms : List (String × Json), MembersTidy ms →
    ∀ ns : List (String × Json), MembersTidy ns → memberChars ms = memberChars ns → ms = ns
  | [], _, [], _, _ => rfl
  | [], _, (l, w) :: ns, _, same => by
    rw [memberChars_cons, quote_append] at same
    cases same
  | (k, v) :: ms, _, [], _, same => by
    rw [memberChars_cons, quote_append] at same
    cases same
  | (k, v) :: ms, tidy, (l, w) :: ns, tidy', same => by
    rw [memberChars_cons, memberChars_cons, quote_append, quote_append, cons_inj_right] at same
    -- the keys are read alike
    have keys := string?_flatMap k (':' :: (v.chars ++ memberTail ms))
    rw [same, string?_flatMap] at keys
    obtain ⟨⟨rfl⟩, rest⟩ := Prod.mk.inj (Option.some.inj keys)
    obtain ⟨rfl, tails⟩ := chars_inj v tidy.1 w tidy'.1 _ _ (ends_memberTail ms)
      (ends_memberTail ns) (List.cons.inj rest).2.symm
    congr 1
    cases ms with
    | nil =>
      cases ns with
      | nil => rfl
      | cons => cases tails
    | cons =>
      cases ns with
      | nil => cases tails
      | cons => exact memberChars_inj _ tidy.2 _ tidy'.2 (List.cons.inj tails).2

end

/-- Different tidy values have different texts. -/
theorem compact_inj {w : Json} (tidy : v.IsTidy) (tidy' : w.IsTidy) (same : v.compact = w.compact) :
    v = w := by
  have chars : v.chars = w.chars := String.ofList_injective same
  exact (chars_inj v tidy w tidy' [] [] (by simp [Ends]) (by simp [Ends]) (by rw [chars])).1

/-! ## Characters of texts -/

theorem escapeChar_printable (member : d ∈ escapeChar c) : 32 ≤ d.toNat := by
  have hex : ∀ n < 16, 32 ≤ (Nat.digitChar n).toNat := by decide
  rcases escapeChar_cases c with ⟨e, escaped, _, _, isVisible⟩ | ⟨escaped, _⟩ |
    ⟨escaped, _, _, isVisible⟩
  · rw [escaped, mem_pair] at member
    rcases member with rfl | rfl
    · decide
    · exact isVisible
  · rw [escaped] at member
    simp only [mem_cons, not_mem_nil, or_false] at member
    rcases member with rfl | rfl | rfl | rfl | rfl | rfl
    · decide
    · decide
    · decide
    · decide
    · exact hex _ (Nat.mod_lt _ (by decide))
    · exact hex _ (Nat.mod_lt _ (by decide))
  · rw [escaped, mem_singleton] at member
    exact member ▸ isVisible

theorem quote_printable {s : List Char} (member : d ∈ quote s) : 32 ≤ d.toNat := by
  simp only [quote, cons_append, mem_cons, mem_append, mem_flatMap,
    not_mem_nil, or_false] at member
  rcases member with rfl | ⟨c, _, escaped⟩ | rfl
  · decide
  · exact escapeChar_printable escaped
  · decide

theorem digit_printable (isDigit : d.isDigit = true) : 32 ≤ d.toNat := by
  simp only [Char.isDigit, Bool.and_eq_true, decide_eq_true_eq] at isDigit
  exact Nat.le_trans (by decide) (UInt32.le_iff_toNat_le.mp isDigit.1)

theorem printable_of_all {s : List Char} (printable : (s.all fun c => 32 ≤ c.toNat) = true) :
    ∀ d ∈ s, 32 ≤ d.toNat := by
  simpa only [all_eq_true, decide_eq_true_eq] using printable

theorem mem_itemTail {vs : List Json} (member : d ∈ itemTail vs) : d = ',' ∨ d ∈ itemChars vs := by
  cases vs with
  | nil => cases member
  | cons => exact mem_cons.mp member

theorem mem_memberTail {ms : List (String × Json)} (member : d ∈ memberTail ms) :
    d = ',' ∨ d ∈ memberChars ms := by
  cases ms with
  | nil => cases member
  | cons => exact mem_cons.mp member

mutual

/-- A text has no control characters. -/
theorem chars_printable : ∀ v : Json, v.IsTidy → ∀ d ∈ v.chars, 32 ≤ d.toNat
  | .null, _ | .bool true, _ | .bool false, _ => printable_of_all (by decide)
  | .num n, tidy => by
    obtain ⟨k, _, rfl⟩ := tidy
    intro d member
    rw [chars_natCast] at member
    exact digit_printable (Nat.isDigit_of_mem_toDigits (by decide) (by decide) member)
  | .str s, _ => fun d member => quote_printable member
  | .arr items, tidy => by
    intro d member
    rw [chars_arr, mem_cons, mem_append, mem_singleton] at member
    rcases member with rfl | inside | rfl
    · decide
    · exact itemChars_printable items tidy d inside
    · decide
  | .obj ms, tidy => by
    intro d member
    rw [chars_obj, mem_cons, mem_append, mem_singleton] at member
    rcases member with rfl | inside | rfl
    · decide
    · exact memberChars_printable ms tidy.2 d inside
    · decide

theorem itemChars_printable : ∀ items : List Json, ItemsTidy items →
    ∀ d ∈ itemChars items, 32 ≤ d.toNat
  | [], _, _, member => by cases member
  | v :: vs, tidy, d, member => by
    rw [itemChars_cons, mem_append] at member
    rcases member with first | later
    · exact chars_printable v tidy.1 d first
    · rcases mem_itemTail later with rfl | later
      · decide
      · exact itemChars_printable vs tidy.2 d later

theorem memberChars_printable : ∀ ms : List (String × Json), MembersTidy ms →
    ∀ d ∈ memberChars ms, 32 ≤ d.toNat
  | [], _, _, member => by cases member
  | (k, v) :: ms, tidy, d, member => by
    rw [memberChars_cons, mem_append, mem_cons, mem_append] at member
    rcases member with key | rfl | value | later
    · exact quote_printable key
    · decide
    · exact chars_printable v tidy.1 d value
    · rcases mem_memberTail later with rfl | later
      · decide
      · exact memberChars_printable ms tidy.2 d later

end

end ReactiveView.Json
