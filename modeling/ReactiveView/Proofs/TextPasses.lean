import ReactiveView.Proofs.JsonTexts
import ReactiveView.Proofs.StringLiterals

/-!
# Passes over the text of an array or object

Three kinds of passes turn the text of an array or object into JSON: keys get double quotes, strings in
single quotes become JSON strings, commas before a closing bracket go.  A pass sees nothing but the
text.  Here is what each of them leaves as it is, and what it changes.
-/

namespace ReactiveView.Expr

open List

section Matches

variable {find : List Char → Option (List Char × Nat)} {cs : List Char}

theorem replaceMatches_skip (skip : Nat) (cs : List Char) :
    replaceMatches find skip cs = replaceMatches find 0 (cs.drop skip) := by
  induction skip generalizing cs with
  | zero => rfl
  | succ skip ih =>
    cases cs with
    | nil => rfl
    | cons c cs => exact ih cs

theorem replaceMatches_cons_of_none {c : Char} (none : find (c :: cs) = none) :
    replaceMatches find 0 (c :: cs) = c :: replaceMatches find 0 cs := by
  simp [replaceMatches, none]

/-- A match is replaced, and the pass goes on behind it. -/
theorem replaceMatches_append {c : Char} {text rest : List Char}
    (found : find (c :: cs ++ rest) = some (text, (c :: cs).length)) :
    replaceMatches find 0 (c :: cs ++ rest) = text ++ replaceMatches find 0 rest := by
  rw [cons_append] at found ⊢
  simp [replaceMatches, found, replaceMatches_skip]

/-- A pass that finds nothing changes nothing. -/
theorem replaceMatches_eq_self (none : ∀ t, t <:+ cs → find t = none) :
    replaceMatches find 0 cs = cs := by
  induction cs with
  | nil => rfl
  | cons c cs ih =>
    rw [replaceMatches_cons_of_none (none _ suffix_rfl),
      ih fun t isSuffix => none t (isSuffix.trans (suffix_cons c cs))]

end Matches

/-! ## Keys -/

/-- What counts as an object key at the front of a text: an opening brace or a comma, a name or a text
    in single quotes, and a colon, with blanks around the name. -/
def LooksLikeKey (cs : List Char) : Prop :=
  ∃ c blanks name gap rest, cs = c :: (blanks ++ (name ++ (gap ++ ':' :: rest))) ∧
    (c = '{' ∨ c = ',') ∧ (∀ b ∈ blanks ++ gap, Text.isBlank b = true) ∧
    (isIdent name = true ∨ ∃ inner, name = '\'' :: (inner ++ ['\'']) ∧ '\'' ∉ inner)

theorem takeWhile_append_drop (p : Char → Bool) (cs : List Char) :
    cs.takeWhile p ++ cs.drop (cs.takeWhile p).length = cs := by
  conv => lhs; arg 1; rw [prefix_iff_eq_take.mp (List.takeWhile_prefix p)]
  exact take_append_drop ..

variable {cs s : List Char} {c bracket : Char}

theorem of_mem_takeWhile {p : Char → Bool} (member : c ∈ cs.takeWhile p) :
    p c = true := all_eq_true.mp all_takeWhile c member

theorem keyName?_sound {name : List Char} {n : Nat} (found : keyName? cs = some (name, n)) :
    isIdent (cs.take n) = true ∨ ∃ inner, cs.take n = '\'' :: (inner ++ ['\'']) ∧ '\'' ∉ inner := by
  cases cs with
  | nil => cases found
  | cons c rest =>
    by_cases isQuote : c = '\''
    · subst isQuote
      simp only [keyName?, Option.ite_none_right_eq_some, Option.some.injEq, Prod.mk.injEq] at found
      obtain ⟨closed, isInner, rfl⟩ := found
      have bare (d : Char) (member : d ∈ name) : decide (d ≠ '\'') = true := by
        rw [← isInner] at member
        exact of_mem_takeWhile member
      have split := takeWhile_append_drop (· ≠ '\'') rest
      rw [isInner] at closed split ⊢
      refine .inr ⟨name, ?_, fun member => absurd (bare _ member) (by decide)⟩
      cases after : rest.drop name.length with
      | nil =>
        rw [drop_eq_nil_iff] at after
        omega
      | cons d after' =>
        rw [after] at split
        have isQuote : d = '\'' := by
          rw [← split, takeWhile_append_of_pos bare] at isInner
          simpa [takeWhile_cons] using isInner
        rw [← split, isQuote, take_succ_cons, take_length_add_append]
        rfl
    · simp only [keyName?, Option.ite_none_right_eq_some, Option.some.injEq, Prod.mk.injEq] at found
      obtain ⟨isStart, -, rfl⟩ := found
      have name := prefix_iff_eq_take.mp (List.takeWhile_prefix isIdentPart (l := rest))
      rw [length_cons, take_succ_cons, ← name, isIdent, isStart, Bool.true_and]
      exact .inl all_takeWhile

theorem looksLikeKey_of_key? {text : List Char} {n : Nat} (found : key? cs = some (text, n)) :
    LooksLikeKey cs := by
  cases cs with
  | nil => cases found
  | cons c rest =>
    simp only [key?, Option.ite_none_right_eq_some, Option.bind_eq_bind,
      Option.bind_eq_some_iff] at found
    obtain ⟨opens, ⟨name, width⟩, isName, colon, -⟩ := found
    obtain ⟨after, isColon⟩ := List.head?_eq_some_iff.mp colon
    refine ⟨c, rest.takeWhile Text.isBlank, _,
      (rest.drop ((rest.takeWhile Text.isBlank).length + width)).takeWhile Text.isBlank, after, ?_,
      opens, ?_, keyName?_sound isName⟩
    · rw [← isColon, takeWhile_append_drop, ← drop_drop, take_append_drop, takeWhile_append_drop]
    · intro b member
      rw [mem_append] at member
      exact member.elim of_mem_takeWhile of_mem_takeWhile

/-- Where nothing looks like a key, no key is quoted. -/
theorem keyed_eq_self (noKey : ∀ t, t <:+ cs → ¬LooksLikeKey t) :
    replaceMatches key? 0 cs = cs := by
  apply replaceMatches_eq_self
  intro t isSuffix
  cases found : key? t with
  | none => rfl
  | some match' => exact absurd (looksLikeKey_of_key? found) (noKey t isSuffix)

/-! ## Strings in single quotes -/

/-- The pass that makes JSON strings of texts in single quotes. -/
def requoted (cs : List Char) : List Char := replaceMatches singleQuoted? 0 cs

/-- What has no single quotes stays as it is. -/
theorem requoted_append {front : List Char} (plain : '\'' ∉ front) (rest : List Char) :
    requoted (front ++ rest) = front ++ requoted rest := by
  induction front with
  | nil => rfl
  | cons c front ih =>
    rw [mem_cons, not_or] at plain
    have none : singleQuoted? (c :: (front ++ rest)) = none := by
      simp [singleQuoted?, Ne.symm plain.1]
    rw [cons_append, requoted, replaceMatches_cons_of_none none, ← requoted, ih plain.2,
      cons_append]

theorem singleQuotedBody?_escape (q : QuoteMark) (bare : q = .double → c ≠ '\'')
    (rest : List Char) : singleQuotedBody? (q.escape c ++ rest) =
      (singleQuotedBody? rest).map (q.escape c ++ ·) := by
  obtain ⟨piece, text, char⟩ := q.exists_piece c
  cases piece with
  | plain d other =>
    obtain rfl : d = c := char
    have noQuote : d ≠ '\'' := by
      cases q with
      | single => exact other.1
      | double => exact bare rfl
    simp [← text, Piece.text, singleQuotedBody?, other.2]
  | escaped d =>
    have noFeed : d ≠ '\n' := by
      rintro rfl
      obtain rfl : '\n' = c := char
      cases q <;> revert text <;> decide
    simp [← text, Piece.text, singleQuotedBody?, noFeed]

theorem singleQuotedBody?_flatMap (q : QuoteMark) (bare : q = .double → '\'' ∉ s)
    (rest : List Char) : singleQuotedBody? (s.flatMap q.escape ++ rest) =
      (singleQuotedBody? rest).map (s.flatMap q.escape ++ ·) := by
  induction s with
  | nil => simp
  | cons c s ih =>
    have first : q = .double → c ≠ '\'' := by
      rintro isDouble rfl
      exact bare isDouble mem_cons_self
    have later : q = .double → '\'' ∉ s := fun isDouble member =>
      bare isDouble (mem_cons_of_mem c member)
    rw [flatMap_cons, append_assoc, singleQuotedBody?_escape q first, ih later]
    simp [Function.comp_def]

theorem unescape_flatMap (q : QuoteMark) (s : List Char) : unescape (s.flatMap q.escape) = s := by
  obtain ⟨pieces, texts, chars⟩ := q.exists_pieces s
  rw [← texts, unescape_pieces, chars]

/-- A string in single quotes becomes a JSON string. -/
theorem requoted_single (s : String) (rest : List Char) :
    requoted (QuoteMark.single.literal s ++ rest) = Json.quote s.toList ++ requoted rest := by
  have body : singleQuotedBody? (s.toList.flatMap QuoteMark.single.escape ++ '\'' :: rest) =
      some (s.toList.flatMap QuoteMark.single.escape) := by
    rw [singleQuotedBody?_flatMap .single (by simp)]
    simp [singleQuotedBody?]
  apply replaceMatches_append
  simp [singleQuoted?, QuoteMark.char, body, unescape_flatMap]

theorem singleQuotedBody?_eq_none (plain : '\'' ∉ cs) : singleQuotedBody? cs = none := by
  fun_induction singleQuotedBody? cs with
  | case1 => rfl
  | case2 => simp at plain
  | case3 => rfl
  | case4 c rest _ ih => simp_all
  | case5 => rfl
  | case6 c rest _ _ _ ih => simp_all

/-- A single quote that is the last one stays as it is. -/
theorem requoted_eq_self (few : cs.count '\'' ≤ 1) : requoted cs = cs := by
  apply replaceMatches_eq_self
  intro t isSuffix
  cases t with
  | nil => rfl
  | cons c rest =>
    by_cases isQuote : c = '\''
    · have fewer := isSuffix.sublist.count_le '\''
      rw [isQuote, count_cons_self] at fewer
      have plain : '\'' ∉ rest := count_eq_zero.mp (by omega)
      simp [isQuote, singleQuoted?, singleQuotedBody?_eq_none plain]
    · simp [singleQuoted?, isQuote]

/-- A single quote that is not the last one becomes a double quote. -/
theorem exists_requoted_eq_cons (closes : (singleQuotedBody? cs).isSome) :
    ∃ rest, requoted ('\'' :: cs) = '"' :: rest := by
  obtain ⟨body, found⟩ := Option.isSome_iff_exists.mp closes
  simp only [requoted, replaceMatches, singleQuoted?, found, Option.map_some, Json.quote,
    cons_append]
  exact ⟨_, rfl⟩

/-! ## Commas -/

/-- A text without the commas right before a bracket. -/
def dropCommas (bracket : Char) : List Char → List Char
  | [] => []
  | c :: rest =>
    if c = ',' ∧ rest.head? = some bracket then dropCommas bracket rest
    else c :: dropCommas bracket rest

section Commas

variable {bracket : Char} (isBracket : bracket = ']' ∨ bracket = '}')
include isBracket

theorem replaceMatches_trailingComma? (cs : List Char) :
    replaceMatches (trailingComma? bracket) 0 cs = dropCommas bracket cs := by
  induction cs with
  | nil => rfl
  | cons c cs ih =>
    rw [dropCommas]
    split
    next found =>
      obtain ⟨rfl, isNext⟩ := found
      obtain ⟨rest, rfl⟩ := List.head?_eq_some_iff.mp isNext
      have noComma : trailingComma? bracket (bracket :: rest) = none := by
        obtain rfl | rfl := isBracket <;> rfl
      rw [replaceMatches_cons_of_none noComma] at ih
      simp [← ih, replaceMatches, trailingComma?]
    next other =>
      have none : trailingComma? bracket (c :: cs) = none := by
        cases cs with
        | nil => simp [trailingComma?]
        | cons d cs => by_cases isComma : c = ',' <;> simp_all [trailingComma?]
      rw [replaceMatches_cons_of_none none, ih]

end Commas

/-- Texts lose their own commas if the first does not end with one or the second does not begin with
    the bracket. -/
theorem dropCommas_append {front rest : List Char}
    (apart : front.getLast? ≠ some ',' ∨ rest.head? ≠ some bracket) :
    dropCommas bracket (front ++ rest) = dropCommas bracket front ++ dropCommas bracket rest := by
  induction front with
  | nil => rfl
  | cons c front ih =>
    cases front with
    | nil =>
      have stays : ¬(c = ',' ∧ rest.head? = some bracket) := by
        rintro ⟨rfl, isNext⟩
        simp [isNext] at apart
      simp [dropCommas, stays]
    | cons d front =>
      rw [List.getLast?_cons_cons] at apart
      rw [cons_append, dropCommas, dropCommas.eq_2 bracket c (d :: front), ih apart]
      have sameHead : (d :: front ++ rest).head? = (d :: front).head? := rfl
      by_cases drops : c = ',' ∧ (d :: front).head? = some bracket
      · rw [if_pos drops, if_pos (sameHead ▸ drops)]
      · rw [if_neg drops, if_neg (sameHead ▸ drops), cons_append]

theorem dropCommas_sublist (bracket : Char) (s : List Char) :
    (dropCommas bracket s).Sublist s := by
  induction s with
  | nil => exact .slnil
  | cons c s ih =>
    rw [dropCommas]
    split
    · exact ih.cons c
    · exact ih.cons_cons c

/-- A text stays as it is if it has no comma before a bracket, and only then. -/
theorem dropCommas_eq_self_iff : dropCommas bracket s = s ↔ ¬[',', bracket] <:+: s := by
  induction s with
  | nil => simp [dropCommas]
  | cons c s ih =>
    have begins : [',', bracket] <+: c :: s ↔ c = ',' ∧ s.head? = some bracket := by
      cases s <;> simp [eq_comm]
    rw [dropCommas, infix_cons_iff, begins, not_or, ← ih]
    split
    next drops =>
      have shorter := (dropCommas_sublist bracket s).length_le
      constructor
      · intro same
        rw [same, length_cons] at shorter
        omega
      · exact fun stays => absurd drops stays.1
    next stays => simp [stays]

theorem dropCommas_of_not_mem (plain : ',' ∉ s) : dropCommas bracket s = s :=
  dropCommas_eq_self_iff.mpr fun inside => plain (inside.subset mem_cons_self)

/-- The escape of a character has none of these in it. -/
theorem not_mem_escapeChar {d : Char} (other : c ≠ d)
    (isMark : d = ',' ∨ d = ']' ∨ d = '}' ∨ d = '\'') : d ∉ Json.escapeChar c := by
  have noHex (n : Nat) : Json.hexDigit n ≠ d := by
    have digits : ∀ n < 16, Nat.digitChar n ≠ ',' ∧ Nat.digitChar n ≠ ']' ∧
      Nat.digitChar n ≠ '}' ∧ Nat.digitChar n ≠ '\'' := by decide
    have digit := digits (n % 16) (Nat.mod_lt n (by decide))
    obtain rfl | rfl | rfl | rfl := isMark
    exacts [digit.1, digit.2.1, digit.2.2.1, digit.2.2.2]
  have unescaped : Json.escape? d = none ∧ d ≠ '\\' ∧ d ≠ 'u' ∧ d ≠ '0' := by
    obtain rfl | rfl | rfl | rfl := isMark <;> decide
  rcases Json.escapeChar_cases c with ⟨e, escaped, isEscape, -⟩ | ⟨escaped, -⟩ | ⟨plain, -⟩
  · have noEscape : d ≠ e := by
      rintro rfl
      simp [unescaped.1] at isEscape
    simp [escaped, unescaped.2.1, noEscape]
  · simp [escaped, unescaped.2, Ne.symm (noHex _)]
  · simp [plain, other.symm]

theorem not_mem_flatMap_escapeChar (bare : '\'' ∉ s) : '\'' ∉ s.flatMap Json.escapeChar := by
  rw [mem_flatMap]
  rintro ⟨c, member, inside⟩
  refine not_mem_escapeChar ?_ (by simp) inside
  rintro rfl
  exact bare member

section Escapes

variable {bracket : Char} (isBracket : bracket = ']' ∨ bracket = '}')
include isBracket

theorem head?_flatMap_escapeChar (s : List Char) :
    (s.flatMap Json.escapeChar).head? = some bracket ↔ s.head? = some bracket := by
  cases s with
  | nil => simp
  | cons c s =>
    by_cases same : c = bracket
    · have plain : Json.escapeChar bracket = [bracket] := by
        obtain rfl | rfl := isBracket <;> rfl
      simp [same, plain]
    · have filled : Json.escapeChar c ≠ [] := by
        rcases Json.escapeChar_cases c with ⟨e, text, -⟩ | ⟨text, -⟩ | ⟨text, -⟩ <;> simp [text]
      have other : (Json.escapeChar c).head? ≠ some bracket := fun isFirst =>
        not_mem_escapeChar same (.inr (isBracket.imp_right .inl)) (mem_of_head? isFirst)
      rw [flatMap_cons, List.head?_append_of_ne_nil _ filled]
      simp [other, same]

/-- Commas can be dropped before a text is escaped or after. -/
theorem dropCommas_flatMap_escapeChar (s : List Char) :
    dropCommas bracket (s.flatMap Json.escapeChar) =
      (dropCommas bracket s).flatMap Json.escapeChar := by
  induction s with
  | nil => rfl
  | cons c s ih =>
    by_cases isComma : c = ','
    · subst isComma
      have comma : Json.escapeChar ',' = [','] := rfl
      rw [flatMap_cons, comma, singleton_append, dropCommas, dropCommas, ih]
      simp only [head?_flatMap_escapeChar isBracket]
      split <;> simp [comma]
    · have plain := not_mem_escapeChar isComma (.inl rfl)
      have apart : (Json.escapeChar c).getLast? ≠ some ',' := fun isLast =>
        plain (mem_of_getLast? isLast)
      rw [flatMap_cons, dropCommas_append (.inl apart), dropCommas_of_not_mem plain, ih,
        dropCommas, if_neg fun drops => isComma drops.1, flatMap_cons]

/-- What stands between double quotes loses its own commas. -/
theorem dropCommas_quoted (s rest : List Char) :
    dropCommas bracket ('"' :: (s.flatMap Json.escapeChar ++ '"' :: rest)) =
      '"' :: ((dropCommas bracket s).flatMap Json.escapeChar ++ '"' :: dropCommas bracket rest) := by
  have noBracket : ('"' :: rest).head? ≠ some bracket := by
    obtain rfl | rfl := isBracket <;> simp
  have stays (cs : List Char) : dropCommas bracket ('"' :: cs) = '"' :: dropCommas bracket cs := by
    simp [dropCommas]
  rw [stays, dropCommas_append (.inr noBracket), stays, dropCommas_flatMap_escapeChar isBracket]

theorem dropCommas_separator (cs : List Char) :
    dropCommas bracket ([',', ' '] ++ cs) = [',', ' '] ++ dropCommas bracket cs := by
  have noBlank : (' ' : Char) ≠ bracket := by
    obtain rfl | rfl := isBracket <;> decide
  simp [dropCommas, noBlank]

end Escapes

end ReactiveView.Expr
