import Mathlib
import ReactiveView.Proofs.ArrayTexts
import ReactiveView.Proofs.TextPasses

/-!
# Array literals

Where an array of literals is evaluated element by element, and where not.
-/

namespace ReactiveView.Expr

open List

namespace Literal

/-- A literal without the commas right before a bracket in a string. -/
def dropCommas (bracket : Char) : Literal → Literal
  | .string q s visible => .string q (String.ofList (Expr.dropCommas bracket s.toList)) (by
      intro c member
      rw [String.toList_ofList] at member
      exact visible c ((dropCommas_sublist bracket s.toList).subset member))
  | l => l

/-- Whether a string in double quotes has a single quote in it. -/
def hidesQuote : Literal → Bool
  | .string .double s _ => s.toList.contains '\''
  | _ => false

/-- Strings without control characters are escaped as in JSON. -/
theorem flatMap_escape_double {s : List Char}
    (visible : ∀ c ∈ s, 32 ≤ c.toNat ∨ c = '\n' ∨ c = '\r' ∨ c = '\t') :
    s.flatMap QuoteMark.double.escape = s.flatMap Json.escapeChar := by
  apply flatMap_congr
  intro c member
  rw [QuoteMark.escape, QuoteMark.char, Json.escapeChar]
  by_cases isQuote : c = '"'
  · simp [isQuote]
  by_cases isBackslash : c = '\\'
  · simp [isBackslash]
  by_cases isFeed : c = '\n' ∨ c = '\r' ∨ c = '\t'
  · obtain rfl | rfl | rfl := isFeed <;> rfl
  · have low := (visible c member).resolve_right isFeed
    have noBack : c ≠ Char.ofNat 8 := by
      rintro rfl
      exact absurd low (by decide)
    have noPage : c ≠ Char.ofNat 12 := by
      rintro rfl
      exact absurd low (by decide)
    simp_all [Nat.not_lt.mpr low]

theorem text_double {s : String}
    (visible : ∀ c ∈ s.toList, 32 ≤ c.toNat ∨ c = '\n' ∨ c = '\r' ∨ c = '\t') :
    QuoteMark.double.literal s = Json.quote s.toList := by
  rw [QuoteMark.literal, flatMap_escape_double visible]
  rfl

/-- A literal with at most one single quote is written as in JSON. -/
theorem text_eq_chars {l : Literal} (few : l.text.count '\'' ≤ 1) : l.text = l.value.chars := by
  obtain ⟨q, s, visible, rfl⟩ | ⟨a, plain⟩ := l.cases_isPlain
  · cases q with
    | single =>
      simp [text, QuoteMark.literal, QuoteMark.char] at few
    | double => exact text_double visible
  · exact plain.chars.symm

theorem requoted_text {l : Literal} (shown : l.hidesQuote = false) (rest : List Char) :
    requoted (l.text ++ rest) = l.value.chars ++ requoted rest := by
  obtain ⟨q, s, visible, rfl⟩ | ⟨a, plain⟩ := l.cases_isPlain
  · cases q with
    | single => exact requoted_single s rest
    | double =>
      have bare : '\'' ∉ s.toList := by simpa [hidesQuote] using shown
      have bare : '\'' ∉ Json.quote s.toList := by
        simpa [Json.quote] using not_mem_flatMap_escapeChar bare
      rw [text, text_double visible, requoted_append bare]
      rfl
  · rw [requoted_append (plain.not_mem (by decide)), plain.chars]

theorem chars_start (l : Literal) :
    ∃ c cs, l.value.chars = c :: cs ∧ Json.isSpace c = false ∧ c ≠ ']' := by
  obtain ⟨q, s, visible, rfl⟩ | ⟨a, plain⟩ := l.cases_isPlain
  · exact ⟨'"', _, rfl, by decide, by decide⟩
  · obtain ⟨c, cs, text⟩ := exists_cons_of_ne_nil a.text_ne_nil
    have isChar : isAtomChar c = true := a.isAtomChar_of_mem plain.noString.2 (by simp [text])
    have other (d : Char) (no : isAtomChar d = false) : c ≠ d := ne_of_isAtomChar isChar no
    refine ⟨c, cs, by rw [plain.chars, ← plain.text, text], ?_, other ']' (by decide)⟩
    simp [Json.isSpace, other ' ' (by decide), other '\t' (by decide), other '\n' (by decide),
      other '\r' (by decide)]

/-- The JSON text of a literal is read as its value, whatever follows. -/
theorem doc?_value (l : Literal) (depth fuel : Nat) (rest : List Char) (ends : Json.Ends rest)
    (enough : 2 * l.value.chars.length ≤ fuel + 1) :
    Json.doc? depth fuel (l.value.chars ++ rest) = some (l.value.toDoc, rest) := by
  have scalar (v : Json) (tidy : v.IsTidy) (flat : v.toDocAt depth = v.toDoc)
      (enough : 2 * v.chars.length ≤ fuel + 1) :
      Json.doc? depth fuel (v.chars ++ rest) = some (v.toDoc, rest) :=
    flat ▸ Json.doc?_chars v tidy depth fuel rest ends enough
  cases l with
  | null | bool _ | string _ _ _ =>
    exact scalar _ (by simp [value, Json.IsTidy]) (by simp [value, Json.toDocAt, Json.toDoc]) enough
  | integer n small =>
    have bound : integerBound ≤ 9223372036854775808 := by decide
    have most : integerBound ≤ Json.maxWord := by decide
    cases n with
    | ofNat k =>
      have tidy : (integer (.ofNat k) small).value.IsTidy := by
        rw [value, Json.IsTidy]
        exact ⟨k, Nat.le_of_lt (Nat.lt_of_lt_of_le small most), rfl⟩
      exact scalar _ tidy (by simp [value, Json.toDocAt, Json.toDoc]) enough
    | negSucc k =>
      have chars : (integer (.negSucc k) small).value.chars = '-' :: Nat.toDigits 10 (k + 1) := by
        change (toString (Int.negSucc k)).toList = _
        simp [toList_repr, Int.negSucc_lt_zero]
      cases fuel with
      | zero =>
        rw [chars, length_cons] at enough
        omega
      | succ fuel =>
        rw [chars, cons_append, Json.doc?_negative (Nat.succ_pos k)
          (Nat.le_of_lt (Nat.lt_of_lt_of_le small bound)) depth fuel ends]
        rfl

theorem dropCommas_chars (l : Literal) {bracket : Char} (isBracket : bracket = ']' ∨ bracket = '}')
    (rest : List Char) : Expr.dropCommas bracket (l.value.chars ++ rest) =
      (l.dropCommas bracket).value.chars ++ Expr.dropCommas bracket rest := by
  obtain ⟨q, s, visible, rfl⟩ | ⟨a, plain⟩ := l.cases_isPlain
  · change Expr.dropCommas bracket (Json.quote s.toList ++ rest) = Json.quote _ ++ _
    rw [Json.quote_append, dropCommas_quoted isBracket, Json.quote_append, String.toList_ofList]
  · have bare : ',' ∉ l.value.chars := plain.chars ▸ plain.not_mem (by decide)
    have stays : l.dropCommas bracket = l := by
      cases l with
      | null | bool _ | integer _ _ => rfl
      | string q s visible => exact absurd rfl (plain.noString.1 q s visible)
    rw [dropCommas_append (.inl fun isLast => bare (mem_of_getLast? isLast)),
      dropCommas_of_not_mem bare, stays]

end Literal

/-! ## Arrays -/

/-- Whether no single quote inside double quotes is followed by another single quote. -/
def quotesLast : List Literal → Bool
  | [] => true
  | l :: ls =>
    (!l.hidesQuote || ((l :: ls).flatMap Literal.text).count '\'' ≤ 1) && quotesLast ls

theorem count_itemsText (l : Literal) (ls : List Literal) :
    (itemsText l.text (ls.map Literal.text)).count '\'' =
      ((l :: ls).flatMap Literal.text).count '\'' := by
  induction ls generalizing l with
  | nil => simp [itemsText_nil]
  | cons next ls ih =>
    rw [map_cons, itemsText_cons, count_append, count_append, ih, flatMap_cons,
      count_append]
    simp

/-- What follows the opening bracket of an array of literals in JSON. -/
def jsonItems (l : Literal) (ls : List Literal) : List Char :=
  itemsText l.value.chars (ls.map (·.value.chars))

variable {l : Literal} {ls : List Literal}

/-- With at most one single quote in it, an array is JSON already. -/
theorem requoted_of_count_le (few : ((l :: ls).flatMap Literal.text).count '\'' ≤ 1) :
    requoted (itemsText l.text (ls.map Literal.text)) = jsonItems l ls := by
  have same (m : Literal) (member : m ∈ l :: ls) : m.text = m.value.chars := by
    have inside := sublist_flatten_of_mem (mem_map_of_mem (f := Literal.text) member)
    exact Literal.text_eq_chars (Nat.le_trans (inside.count_le _) few)
  rw [requoted_eq_self (count_itemsText l ls ▸ few), jsonItems, same l mem_cons_self,
    map_congr_left fun m member => same m (mem_cons_of_mem l member)]

/-- The strings in single quotes become JSON strings, and nothing else changes. -/
theorem requoted_items (last : quotesLast (l :: ls) = true) :
    requoted (itemsText l.text (ls.map Literal.text)) = jsonItems l ls := by
  induction ls generalizing l with
  | nil =>
    cases hides : l.hidesQuote with
    | true => exact requoted_of_count_le (by simpa [quotesLast, hides] using last)
    | false => exact Literal.requoted_text hides [']']
  | cons next ls ih =>
    rw [quotesLast, Bool.and_eq_true] at last
    cases hides : l.hidesQuote with
    | true => exact requoted_of_count_le (by simpa [hides] using last.1)
    | false =>
      rw [map_cons, itemsText_cons, Literal.requoted_text hides, requoted_append (by decide),
        ih last.2]
      rfl

theorem dropCommas_items {bracket : Char} (isBracket : bracket = ']' ∨ bracket = '}') (l : Literal)
    (ls : List Literal) : dropCommas bracket (jsonItems l ls) =
      jsonItems (l.dropCommas bracket) (ls.map (·.dropCommas bracket)) := by
  induction ls generalizing l with
  | nil =>
    rw [jsonItems, map_nil, itemsText_nil, l.dropCommas_chars isBracket]
    rfl
  | cons next ls ih =>
    rw [jsonItems, map_cons, itemsText_cons, l.dropCommas_chars isBracket,
      dropCommas_separator isBracket, ← jsonItems, ih]
    rfl

theorem items?_blank (depth fuel : Nat) (cs : List Char) :
    Json.items? depth fuel (' ' :: cs) = Json.items? depth fuel cs := by
  have skips : Json.skipSpace (' ' :: cs) = Json.skipSpace cs := rfl
  have doc (fuel : Nat) : Json.doc? depth fuel (' ' :: cs) = Json.doc? depth fuel cs := by
    cases fuel with
    | zero => rfl
    | succ fuel => rw [Json.doc?, Json.doc?, skips]
  cases fuel with
  | zero => rfl
  | succ fuel => rw [Json.items?, Json.items?, doc]

theorem items?_items (l : Literal) (ls : List Literal) (depth fuel : Nat)
    (enough : 2 * (jsonItems l ls).length ≤ fuel) :
    Json.items? depth fuel (jsonItems l ls) = some ((l :: ls).map (·.value.toDoc), []) := by
  induction ls generalizing l fuel with
  | nil =>
    simp only [jsonItems, map_nil, itemsText_nil, length_append, length_singleton] at enough
    obtain ⟨fuel, rfl⟩ := Nat.exists_eq_add_one.mpr (show 0 < fuel by omega)
    have read := l.doc?_value depth fuel [']'] (by simp [Json.Ends]) (by omega)
    simp [jsonItems, itemsText_nil, Json.items?, read, Json.skipSpace, Json.isSpace]
  | cons next ls ih =>
    simp only [jsonItems, map_cons, itemsText_cons, length_append, length_cons] at enough
    obtain ⟨fuel, rfl⟩ := Nat.exists_eq_add_one.mpr (show 0 < fuel by omega)
    have read := l.doc?_value depth fuel ([',', ' '] ++ jsonItems next ls) (by simp [Json.Ends])
      (by omega)
    have others := ih next fuel (by rw [jsonItems]; omega)
    rw [jsonItems, map_cons, itemsText_cons, ← jsonItems, Json.items?, read]
    simp [Json.skipSpace, Json.isSpace, items?_blank, others]

theorem toJson?_value (l : Literal) : l.value.toDoc.toJson? = some l.value := by
  cases l <;> rfl

theorem itemsToJson?_values (ls : List Literal) :
    Json.Doc.itemsToJson? (ls.map (·.value.toDoc)) = some (ls.map Literal.value) := by
  induction ls with
  | nil => rfl
  | cons l ls ih => simp [Json.Doc.itemsToJson?, toJson?_value, ih]

/-- An array that is not empty is read as its items. -/
theorem read?_array {c : Char} (visible : Json.isSpace c = false) (inside : c ≠ ']') (cs : List Char) :
    Json.read? ('[' :: c :: cs) =
      (Json.items? 1 (2 * (cs.length + 2) + 1) (c :: cs)).bind fun read =>
        if (Json.skipSpace read.2).isEmpty then (Json.Doc.itemsToJson? read.1).map .arr else none := by
  have fuel : 2 * ('[' :: c :: cs).length + 2 = 2 * (cs.length + 2) + 1 + 1 := rfl
  rw [Json.read?, Json.Doc.read?, fuel]
  cases read : Json.items? 1 (2 * (cs.length + 2) + 1) (c :: cs) with
  | none =>
    have nothing : Json.doc? 0 (2 * (cs.length + 2) + 1 + 1) ('[' :: c :: cs) = none := by
      rw [Json.doc?, Json.skipSpace_cons (by decide)]
      simp [Json.skipSpace_cons visible, inside, read]
    rw [nothing]
    rfl
  | some found =>
    rw [Json.doc?_array visible inside read, if_neg (by decide), Option.bind_some]
    dsimp only
    cases (Json.skipSpace found.2).isEmpty <;> rfl

/-- The JSON text of an array of literals is read as the array of their values. -/
theorem read?_jsonItems (l : Literal) (ls : List Literal) :
    Json.read? ('[' :: jsonItems l ls) = some (.arr ((l :: ls).map Literal.value)) := by
  obtain ⟨c, cs, starts, visible, inside⟩ := l.chars_start
  have shape : jsonItems l ls = c :: (cs ++ arrayTail (ls.map (·.value.chars))) := by
    rw [jsonItems, itemsText, starts, cons_append]
  have read := items?_items l ls 1 (2 * ((cs ++ arrayTail (ls.map (·.value.chars))).length + 2) + 1)
    (by rw [shape, length_cons]; omega)
  rw [shape] at read ⊢
  rw [read?_array visible inside, read, Option.bind_some, itemsToJson?_values]
  rfl

/-! ## Texts that are changed -/

/-- The items of an array are the first one and, after a comma, the others. -/
theorem exists_items_eq_cons {depth fuel : Nat} {cs after rest : List Char} {d : Json.Doc}
    {docs : List Json.Doc} (first : Json.doc? depth fuel cs = some (d, after))
    (read : Json.items? depth (fuel + 1) cs = some (docs, rest)) :
    ∃ others, docs = d :: others ∧ ∀ more, after = ',' :: more →
      ∃ rest', Json.items? depth fuel more = some (others, rest') := by
  rw [Json.items?, first, Option.bind_eq_bind, Option.bind_some] at read
  dsimp only at read
  split at read
  next closing closes =>
    simp only [Option.pure_def, Option.some.injEq, Prod.mk.injEq] at read
    refine ⟨[], read.1.symm, ?_⟩
    rintro more rfl
    cases closes
  next more goesOn =>
    rw [Option.bind_eq_bind, Option.bind_eq_some_iff] at read
    obtain ⟨⟨others, rest'⟩, items, same⟩ := read
    simp only [Option.pure_def, Option.some.injEq, Prod.mk.injEq] at same
    refine ⟨others, same.1.symm, ?_⟩
    rintro more' rfl
    cases goesOn
    exact ⟨rest', items⟩
  · cases read

/-- What a JSON text of array items is if it cannot be read as the values: it begins with JSON texts of
    literals, and then comes a string that is shorter than the value in its place. -/
inductive Broken : List Json → List Char → Prop where
  | here {s : String} {t rest : List Char} {vs : List Json} (short : t.length < s.length) :
      Broken (.str s :: vs) ('"' :: (t.flatMap Json.escapeChar ++ '"' :: rest))
  | later {v : Json} {vs : List Json} {text : List Char} (l : Literal) (broken : Broken vs text) :
      Broken (v :: vs) (l.value.chars ++ ([',', ' '] ++ text))

namespace Broken

variable {vs : List Json} {text : List Char}

theorem dropCommas {bracket : Char} (isBracket : bracket = ']' ∨ bracket = '}')
    (broken : Broken vs text) : Broken vs (Expr.dropCommas bracket text) := by
  induction broken with
  | @here s t rest vs short =>
    rw [dropCommas_quoted isBracket]
    exact .here (Nat.lt_of_le_of_lt (dropCommas_sublist bracket t).length_le short)
  | later l broken ih =>
    rw [l.dropCommas_chars isBracket, dropCommas_separator isBracket]
    exact .later (l.dropCommas bracket) ih

theorem itemsToJson?_ne {depth fuel : Nat} {docs : List Json.Doc} {rest : List Char}
    (broken : Broken vs text) (read : Json.items? depth fuel text = some (docs, rest))
    (enough : 2 * text.length ≤ fuel) : Json.Doc.itemsToJson? docs ≠ some vs := by
  induction broken generalizing fuel docs rest with
  | @here s t after vs short =>
    simp only [length_cons, length_append] at enough
    obtain ⟨fuel, rfl⟩ := Nat.exists_eq_add_of_le' (show 2 ≤ fuel by omega)
    have string := Json.string?_flatMap (String.ofList t) after
    rw [String.toList_ofList] at string
    have first : Json.doc? depth (fuel + 1) ('"' :: (t.flatMap Json.escapeChar ++ '"' :: after)) =
        some (.str (String.ofList t), after) := by
      simp [Json.doc?, Json.skipSpace, Json.isSpace, string]
    obtain ⟨others, rfl, -⟩ := exists_items_eq_cons first read
    intro same
    simp only [Json.Doc.itemsToJson?, Json.Doc.toJson?, Option.bind_eq_bind, Option.bind_some,
      Option.bind_eq_some_iff, Option.pure_def, Option.some.injEq, List.cons.injEq,
      Json.str.injEq] at same
    -- the string that is read is shorter than the one that was written
    obtain ⟨-, -, rfl, -⟩ := same
    simp at short
  | @later v vs text l broken ih =>
    simp only [length_append, length_cons, length_nil] at enough
    obtain ⟨fuel, rfl⟩ := Nat.exists_eq_add_of_le' (show 1 ≤ fuel by omega)
    have first := l.doc?_value depth fuel ([',', ' '] ++ text) (by simp [Json.Ends]) (by omega)
    obtain ⟨others, rfl, later⟩ := exists_items_eq_cons first read
    obtain ⟨rest', read⟩ := later (' ' :: text) rfl
    rw [items?_blank] at read
    intro same
    simp only [Json.Doc.itemsToJson?, toJson?_value, Option.bind_eq_bind, Option.bind_some,
      Option.bind_eq_some_iff, Option.pure_def, Option.some.injEq, List.cons.injEq] at same
    obtain ⟨ws, values, -, rfl⟩ := same
    have bound : 2 * text.length ≤ fuel := by omega
    exact ih read bound values

theorem read?_ne (broken : Broken vs text) : Json.read? ('[' :: text) ≠ some (.arr vs) := by
  obtain ⟨c, cs, starts, visible, inside⟩ :
      ∃ c cs, text = c :: cs ∧ Json.isSpace c = false ∧ c ≠ ']' := by
    cases broken with
    | here => exact ⟨'"', _, rfl, by decide, by decide⟩
    | later l =>
      obtain ⟨c, cs, starts, visible, inside⟩ := l.chars_start
      exact ⟨c, _, by rw [starts, cons_append], visible, inside⟩
  intro same
  rw [starts, read?_array visible inside, Option.bind_eq_some_iff] at same
  obtain ⟨⟨docs, rest⟩, read, same⟩ := same
  simp only [Option.ite_none_right_eq_some, Option.map_eq_some_iff, Json.arr.injEq] at same
  obtain ⟨-, ws, values, rfl⟩ := same
  exact itemsToJson?_ne (starts ▸ broken) read (by simp only [length_cons]; omega) values

end Broken

/-! ## Single quotes inside double quotes -/

/-- If there is a single quote in the text, then one before the text is closed. -/
def Closes (cs : List Char) : Prop := '\'' ∈ cs → (singleQuotedBody? cs).isSome = true

namespace Closes

variable {rest : List Char} (closes : Closes rest)
include closes

theorem append (front : List Char) (plain : ∀ c ∈ front, c ≠ '\'' ∧ c ≠ '\\') :
    Closes (front ++ rest) := by
  induction front with
  | nil => exact closes
  | cons c front ih =>
    rw [forall_mem_cons] at plain
    intro member
    have later : '\'' ∈ front ++ rest := by simpa [Ne.symm plain.1.1] using member
    have noQuote := plain.1.1
    simp [singleQuotedBody?, plain.1.2, ih plain.2 later]

theorem escaped (s : List Char) : Closes (s.flatMap QuoteMark.double.escape ++ rest) := by
  induction s with
  | nil => exact closes
  | cons c s ih =>
    intro member
    rw [flatMap_cons, append_assoc] at member ⊢
    by_cases isQuote : c = '\''
    · subst isQuote
      rfl
    · obtain ⟨piece, text, char⟩ := QuoteMark.double.exists_piece c
      have bare : '\'' ∉ QuoteMark.double.escape c := by
        rw [← text]
        cases piece with
        | plain d _ =>
          obtain rfl : d = c := char
          simp [Piece.text, Ne.symm isQuote]
        | escaped d =>
          have other : d ≠ '\'' := by
            rintro rfl
            exact isQuote char.symm
          simp [Piece.text, other.symm]
      rw [singleQuotedBody?_escape .double fun _ => isQuote, Option.isSome_map]
      exact ih ((mem_append.mp member).resolve_left bare)

theorem literal (l : Literal) : Closes (l.text ++ rest) := by
  obtain ⟨q, s, visible, rfl⟩ | ⟨a, plain⟩ := l.cases_isPlain
  · cases q with
    | single => exact fun _ => rfl
    | double =>
      have after : Closes (['"'] ++ rest) := closes.append ['"'] (by simp)
      have whole := (after.escaped s.toList).append ['"'] (by simp)
      simpa [Literal.text, QuoteMark.literal, QuoteMark.char] using whole
  · apply closes.append l.text
    intro c member
    constructor
    · rintro rfl
      exact plain.not_mem (by decide) member
    · rintro rfl
      exact plain.not_mem (by decide) member

end Closes

theorem closes_arrayTail (ls : List Literal) : Closes (arrayTail (ls.map Literal.text)) := by
  induction ls with
  | nil => exact fun member => absurd member (by decide)
  | cons l ls ih => exact (ih.literal l).append [',', ' '] (by simp)

theorem lt_count_of_quotesLast (broken : quotesLast ls = false) :
    1 < (ls.flatMap Literal.text).count '\'' := by
  induction ls with
  | nil => cases broken
  | cons l ls ih =>
    rw [quotesLast, Bool.and_eq_false_iff] at broken
    cases broken with
    | inl here => simpa using (Bool.or_eq_false_iff.mp here).2
    | inr later =>
      rw [flatMap_cons, count_append]
      exact Nat.lt_add_left _ (ih later)

theorem exists_double_of_hidesQuote (hides : l.hidesQuote = true) :
    ∃ s visible, l = .string .double s visible ∧ '\'' ∈ s.toList := by
  cases l with
  | null | bool _ | integer _ _ => cases hides
  | string q s visible =>
    cases q with
    | single => cases hides
    | double => exact ⟨s, visible, rfl, by simpa [Literal.hidesQuote] using hides⟩

/-- A string in double quotes ends at its first single quote if another one follows. -/
theorem Broken.of_hidesQuote (hides : l.hidesQuote = true)
    (many : 1 < ((l :: ls).flatMap Literal.text).count '\'') :
    Broken ((l :: ls).map Literal.value) (requoted (itemsText l.text (ls.map Literal.text))) := by
  obtain ⟨s, visible, rfl, member⟩ := exists_double_of_hidesQuote hides
  obtain ⟨before, after, split, bare⟩ := eq_append_cons_of_mem member
  have escaped : before.flatMap QuoteMark.double.escape = before.flatMap Json.escapeChar :=
    Literal.flatMap_escape_double fun c inside => visible c (by simp [split, inside])
  have text : itemsText (QuoteMark.double.literal s) (ls.map Literal.text) =
      ('"' :: before.flatMap Json.escapeChar) ++ '\'' :: (after.flatMap QuoteMark.double.escape ++
        (['"'] ++ arrayTail (ls.map Literal.text))) := by
    have quote : QuoteMark.double.escape '\'' = ['\''] := rfl
    simp [itemsText, QuoteMark.literal, split, escaped, quote, QuoteMark.char]
  have plain : '\'' ∉ '"' :: before.flatMap Json.escapeChar := by
    simpa using not_mem_flatMap_escapeChar bare
  have closes := ((closes_arrayTail ls).append ['"'] (by simp)).escaped after
  rw [← count_itemsText, Literal.text, text, count_append, count_eq_zero.mpr plain,
    count_cons_self] at many
  obtain ⟨rest, requotes⟩ := exists_requoted_eq_cons
    (closes (one_le_count_iff.mp (by omega)))
  have short : before.length < s.length := by
    rw [← String.length_toList, split]
    simp
  rw [Literal.text, text, requoted_append plain, requotes]
  exact .here short

/-- If a single quote inside double quotes is followed by another, the array is not read as the
    values. -/
theorem Broken.of_quotesLast (broken : quotesLast (l :: ls) = false) :
    Broken ((l :: ls).map Literal.value) (requoted (itemsText l.text (ls.map Literal.text))) := by
  induction ls generalizing l with
  | nil =>
    cases hides : l.hidesQuote with
    | true => exact .of_hidesQuote hides (lt_count_of_quotesLast broken)
    | false => simp [quotesLast, hides] at broken
  | cons next ls ih =>
    cases hides : l.hidesQuote with
    | true => exact .of_hidesQuote hides (lt_count_of_quotesLast broken)
    | false =>
      rw [quotesLast, hides] at broken
      have later := ih (by simpa using broken)
      change Broken (l.value :: (next :: ls).map Literal.value)
        (requoted (l.text ++ ([',', ' '] ++ itemsText next.text (ls.map Literal.text))))
      rw [Literal.requoted_text hides, requoted_append (by decide)]
      exact .later l later

/-! ## Elements and arrays -/

namespace Literal

/-- A literal without the commas right before a closing bracket or brace in a string. -/
def withoutCommas (l : Literal) : Literal := (l.dropCommas ']').dropCommas '}'

/-- No string has a comma right before a closing bracket or brace. -/
def KeepsCommas : Literal → Prop
  | .string _ s _ => ¬[',', ']'] <:+: s.toList ∧ ¬[',', '}'] <:+: s.toList
  | _ => True

theorem withoutCommas_value_eq_iff (l : Literal) :
    l.withoutCommas.value = l.value ↔ l.KeepsCommas := by
  cases l with
  | null | bool _ | integer _ _ => exact ⟨fun _ => trivial, fun _ => rfl⟩
  | string q s visible =>
    have left : (string q s visible).withoutCommas.value =
        .str (String.ofList (Expr.dropCommas '}' (Expr.dropCommas ']' s.toList))) := by
      simp [withoutCommas, dropCommas, value]
    rw [left, value, Json.str.injEq, KeepsCommas, ← dropCommas_eq_self_iff, ← dropCommas_eq_self_iff]
    constructor
    · intro same
      have all := congrArg String.toList same
      rw [String.toList_ofList] at all
      -- Neither pass makes a text longer, so none of them made it shorter.
      have outer := (dropCommas_sublist '}' (Expr.dropCommas ']' s.toList)).length_le
      rw [all] at outer
      have first := (dropCommas_sublist ']' s.toList).eq_of_length_le outer
      exact ⟨first, by rwa [first] at all⟩
    · rintro ⟨first, second⟩
      rw [first, second, String.ofList_toList]

end Literal

section Passes

variable {items : List Literal}
  (noKey : ∀ t, t <:+ arrayText (items.map Literal.text) → ¬LooksLikeKey t)
include noKey

/-- The JSON text of an array in which nothing looks like a key. -/
theorem jsonText_arrayText {l : Literal} {ls : List Literal} (isList : items = l :: ls) :
    jsonText (arrayText (items.map Literal.text)) =
      '[' :: dropCommas '}' (dropCommas ']' (requoted (itemsText l.text (ls.map Literal.text)))) := by
  subst isList
  have stays (bracket : Char) (cs : List Char) : dropCommas bracket ('[' :: cs) =
      '[' :: dropCommas bracket cs := by simp [dropCommas]
  rw [jsonText, keyed_eq_self noKey, ← requoted, replaceMatches_trailingComma? (.inl rfl),
    replaceMatches_trailingComma? (.inr rfl), map_cons, arrayText_cons,
    ← singleton_append, requoted_append (by decide), singleton_append, stays, stays]

theorem containerLiteral?_of_quotesLast (last : quotesLast items = true) :
    containerLiteral? (arrayText (items.map Literal.text)) =
      some (.arr (items.map fun l => l.withoutCommas.value)) := by
  cases isList : items with
  | nil => rfl
  | cons l ls =>
    rw [isList] at last
    rw [containerLiteral?, ← isList, jsonText_arrayText noKey isList, requoted_items last,
      dropCommas_items (.inl rfl), dropCommas_items (.inr rfl), read?_jsonItems]
    simp [isList, Literal.withoutCommas]

theorem containerLiteral?_ne (broken : quotesLast items = false) :
    containerLiteral? (arrayText (items.map Literal.text)) ≠ some (.arr (items.map Literal.value)) := by
  cases isList : items with
  | nil => simp [isList, quotesLast] at broken
  | cons l ls =>
    rw [isList] at broken
    rw [containerLiteral?, ← isList, jsonText_arrayText noKey isList, isList]
    exact (((Broken.of_quotesLast broken).dropCommas (.inl rfl)).dropCommas (.inr rfl)).read?_ne

end Passes

theorem eval_arrayText (scope : Scope) (items : List Literal) :
    eval scope (String.ofList (arrayText (items.map Literal.text))) =
      (containerLiteral? (arrayText (items.map Literal.text))).getD .null := by
  rw [eval, String.toList_ofList, eval?_arrayText]

/-- An array of literals in which nothing looks like an object key is the array of their values, but
    for commas right before a closing bracket or brace, if no single quote inside double quotes is
    followed by another single quote.  So it is evaluated element by element exactly if there is
    neither such a comma nor such a quote. -/
theorem eval_array (scope : Scope) (items : List Literal)
    (noKey : ∀ t, t <:+ arrayText (items.map Literal.text) → ¬LooksLikeKey t) :
    (quotesLast items = true → eval scope (String.ofList (arrayText (items.map Literal.text))) =
      .arr (items.map fun l => l.withoutCommas.value)) ∧
    (eval scope (String.ofList (arrayText (items.map Literal.text))) =
        .arr (items.map fun l => eval scope (String.ofList l.text)) ↔
      quotesLast items = true ∧ ∀ l ∈ items, l.KeepsCommas) := by
  have alone (l : Literal) : eval scope (String.ofList l.text) = l.value := by
    rw [eval, String.toList_ofList, l.eval?_text, Option.getD_some]
  simp only [alone, eval_arrayText]
  cases last : quotesLast items with
  | true =>
    simp [containerLiteral?_of_quotesLast noKey last, ← Literal.withoutCommas_value_eq_iff]
  | false =>
    have other := containerLiteral?_ne noKey last
    refine ⟨by simp, ?_⟩
    cases found : containerLiteral? (arrayText (items.map Literal.text)) with
    | none => simp
    | some v => simpa [found] using other

theorem LooksLikeKey.mem {cs : List Char} (isKey : LooksLikeKey cs) : ':' ∈ cs := by
  obtain ⟨c, blanks, name, gap, rest, rfl, -⟩ := isKey
  simp

/-- The items of an array with a comma before a bracket in a string and a single quote between double
    quotes. -/
def sampleItems : List Literal :=
  [.integer (-5) (by decide), .string .single "a,]" (by simp), .bool true,
    .string .double "it's" (by simp)]

theorem eval_array_sample : quotesLast sampleItems = true ∧
    eval Scope.empty "[-5, 'a,]', true, \"it's\"]" =
      .arr [.num (.int (-5)), .str "a]", .bool true, .str "it's"] ∧
    eval Scope.empty "[-5, 'a,]', true, \"it's\"]" ≠
      .arr [.num (.int (-5)), .str "a,]", .bool true, .str "it's"] := by
  have noKey : ∀ t, t <:+ arrayText (sampleItems.map Literal.text) → ¬LooksLikeKey t := by
    intro t isSuffix isKey
    exact absurd (isSuffix.subset isKey.mem) (by decide)
  have last : quotesLast sampleItems = true := by decide
  have text : arrayText (sampleItems.map Literal.text) =
      "[-5, 'a,]', true, \"it's\"]".toList := by decide
  have values : sampleItems.map (fun l => l.withoutCommas.value) =
      [.num (.int (-5)), .str "a]", .bool true, .str "it's"] := by
    simp [sampleItems, Literal.withoutCommas, Literal.dropCommas, Literal.value, dropCommas]
  have value := (eval_array Scope.empty sampleItems noKey).1 last
  rw [text, String.ofList_toList, values] at value
  exact ⟨last, value, by simp [value]⟩

/-- Strings in arrays lose commas, get quotes around what looks like a key, and end at a single quote
    that another one follows. -/
theorem array_changes_strings :
    eval Scope.empty "[',]']" = .arr [.str "]"] ∧ eval Scope.empty "',]'" = .str ",]" ∧
    eval Scope.empty "['x, y: z']" = .arr [.str "x, \"y\": z"] ∧
    eval Scope.empty "[\"it's\", 'ok']" = .null := by
  have array {items : List Literal} {code : String}
      (text : arrayText (items.map Literal.text) = code.toList) :
      eval Scope.empty code = (containerLiteral? code.toList).getD .null := by
    rw [← text, ← eval_arrayText, text, String.ofList_toList]
  have comma : containerLiteral? "[',]']".toList = some (.arr [.str "]"]) := by cbv
  have key : containerLiteral? "['x, y: z']".toList = some (.arr [.str "x, \"y\": z"]) := by cbv
  have quote : containerLiteral? "[\"it's\", 'ok']".toList = none := by cbv
  refine ⟨?_, ?_, ?_, ?_⟩
  · have text : arrayText ([.string .single ",]" (by simp)].map Literal.text) =
        "[',]']".toList := by decide
    rw [array text, comma, Option.getD_some]
  · have text : "',]'".toList = QuoteMark.single.literal ",]" := by decide
    rw [eval, text, QuoteMark.eval?_literal, Option.getD_some]
  · have text : arrayText ([.string .single "x, y: z" (by simp)].map Literal.text) =
        "['x, y: z']".toList := by decide
    rw [array text, key, Option.getD_some]
  · have text : arrayText ([.string .double "it's" (by simp),
        .string .single "ok" (by simp)].map Literal.text) = "[\"it's\", 'ok']".toList := by decide
    rw [array text, quote, Option.getD_none]

end ReactiveView.Expr
