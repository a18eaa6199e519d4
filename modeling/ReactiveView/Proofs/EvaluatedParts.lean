import ReactiveView.Expr.Eval

/-!
# Parts of expression text

Every part of a text that evaluation goes on with is shorter than the text, so the value of a text is
what `evalStep` makes of the values of its parts (`eval?_eq`).  Blanks and semicolons around a text do
not count (`eval?_padded`).
-/

namespace ReactiveView.Expr

open List

/-! ## Positions of operators -/

variable {cs part before after : List Char}

/-- A position of an operator lies in the text, and the operator stands there. -/
theorem mem_topLevelFrom {op : List Char} {mode : ScanMode} {depth : Int} {skip i p : Nat}
    (member : p ∈ topLevelFrom op mode depth skip i cs) :
    i ≤ p ∧ p < i + cs.length ∧ op.isPrefixOf (cs.drop (p - i)) := by
  induction cs generalizing mode depth skip i with
  | nil => simp [topLevelFrom] at member
  | cons c rest ih =>
    -- What is found after the first character is found in the rest of the text.
    have later : ∀ {mode depth skip}, p ∈ topLevelFrom op mode depth skip (i + 1) rest →
        i ≤ p ∧ p < i + (c :: rest).length ∧ op.isPrefixOf ((c :: rest).drop (p - i)) := by
      intro mode depth skip found
      obtain ⟨low, high, stands⟩ := ih found
      have next : p - i = p - (i + 1) + 1 := by omega
      simp only [length_cons, next, drop_succ_cons]
      exact ⟨by omega, by omega, stands⟩
    cases mode with
    | escaped quote => exact later member
    | quoted quote => exact later member
    | code =>
      cases skip with
      | succ skip => exact later member
      | zero =>
        simp only [topLevelFrom] at member
        split at member
        · exact later member
        · split at member
          · exact later member
          · split at member
            · exact later member
            · split at member
              next here =>
                cases member with
                | head => simpa using here.2
                | tail _ member => exact later member
              · exact later member

/-- A scan leaves out the rest of an operator. -/
theorem topLevelFrom_skip (op : List Char) (depth : Int) (skip i : Nat) (cs : List Char) :
    topLevelFrom op .code depth skip i cs =
      topLevelFrom op .code depth 0 (i + skip) (cs.drop skip) := by
  induction skip generalizing i cs with
  | zero => rfl
  | succ skip ih =>
    cases cs with
    | nil => rfl
    | cons c cs => rw [topLevelFrom, ih, drop_succ_cons, Nat.add_assoc, Nat.add_comm 1]

/-- A position of an operator lies in the text. -/
theorem lt_length_of_mem_topLevel {op : List Char} {p : Nat} (member : p ∈ topLevel op cs) :
    p < cs.length := by
  simpa using (mem_topLevelFrom member).2.1

/-! ## Parts stand in the text -/

/-- A text stands in another and is shorter. -/
def Within (part cs : List Char) : Prop := part <:+: cs ∧ part.length < cs.length

theorem Within.trans_isInfix {ds : List Char} (within : Within part cs) (stands : cs <:+: ds) :
    Within part ds :=
  ⟨within.1.trans stands, Nat.lt_of_lt_of_le within.2 stands.length_le⟩

theorem Within.of_isInfix {ds : List Char} (within : Within cs ds) (stands : part <:+: cs) :
    Within part ds :=
  ⟨stands.trans within.1, Nat.lt_of_le_of_lt stands.length_le within.2⟩

theorem within_cons (c : Char) (cs : List Char) : Within cs (c :: cs) :=
  ⟨(suffix_cons c cs).isInfix, Nat.lt_succ_self _⟩

section Cut

variable {cs : List Char} {p : Nat} (inside : p < cs.length)
include inside

theorem within_take : Within (cs.take p) cs := by
  refine ⟨(List.take_prefix p cs).isInfix, ?_⟩
  rwa [length_take_of_le (Nat.le_of_lt inside)]

theorem within_drop {n : Nat} (later : p < n) : Within (cs.drop n) cs := by
  refine ⟨(drop_suffix n cs).isInfix, ?_⟩
  rw [length_drop]
  omega

end Cut

theorem within_of_unwrap? {inner : List Char} (found : unwrap? cs = some inner) :
    Within inner cs := by
  cases cs with
  | nil => cases found
  | cons c rest =>
    simp only [unwrap?] at found
    split at found
    next rest' same =>
      simp only [List.cons.injEq] at same
      simp only [Option.ite_none_right_eq_some, Option.some.injEq] at found
      obtain ⟨-, rfl⟩ := found
      rw [← same.2]
      exact (within_cons c rest).of_isInfix (List.dropLast_prefix rest).isInfix
    · cases found

theorem within_of_ternary? {condition yes no : List Char}
    (found : ternary? cs = some (condition, yes, no)) :
    Within condition cs ∧ Within yes cs ∧ Within no cs := by
  simp only [ternary?, Option.bind_eq_bind, Option.bind_eq_some_iff, Option.pure_def,
    Option.some.injEq, Prod.mk.injEq] at found
  obtain ⟨question, isFirst, colon, isColon, rfl, rfl, rfl⟩ := found
  have first := lt_length_of_mem_topLevel (mem_of_head? isFirst)
  have second := lt_length_of_mem_topLevel (mem_of_find?_eq_some isColon)
  have between := (within_take second).of_isInfix (drop_suffix (question + 1) _).isInfix
  exact ⟨within_take first, between, within_drop second (Nat.lt_succ_self colon)⟩

theorem within_of_mem_comparisons {left right : List Char} {op : CompareOp}
    (member : (op, left, right) ∈ comparisons cs) : Within left cs ∧ Within right cs := by
  simp only [comparisons, mem_filterMap, comparison?, Option.bind_eq_bind,
    Option.bind_eq_some_iff] at member
  obtain ⟨op', -, p, isFirst, found⟩ := member
  split at found
  · cases found
  · simp only [Option.pure_def, Option.some.injEq, Prod.mk.injEq] at found
    obtain ⟨rfl, rfl, rfl⟩ := found
    have first := lt_length_of_mem_topLevel (mem_of_head? isFirst)
    have symbol : 0 < op'.symbol.length := by cases op' <;> decide
    exact ⟨within_take first, within_drop first (Nat.lt_add_of_pos_right symbol)⟩

theorem isInfix_of_mem_cutAt {i : Nat} {ps : List Nat} (member : part ∈ cutAt i cs ps) :
    part <:+: cs := by
  induction ps generalizing i cs with
  | nil =>
    simp only [cutAt, mem_singleton] at member
    simp [member]
  | cons p ps ih =>
    simp only [cutAt, mem_cons] at member
    cases member with
    | inl first => exact first ▸ (List.take_prefix _ _).isInfix
    | inr later => exact (ih later).trans (drop_suffix _ _).isInfix

theorem within_of_summands? {first : List Char} {rest : List (List Char)}
    (found : summands? cs = some (first, rest)) :
    Within first cs ∧ ∀ part ∈ rest, Within part cs := by
  simp only [summands?] at found
  split at found
  · cases found
  next p ps positions =>
    have inside : p < cs.length := lt_length_of_mem_topLevel (positions ▸ mem_cons_self)
    simp only [cutAt, Nat.sub_zero, Option.ite_none_left_eq_some, Option.some.injEq,
      Prod.mk.injEq] at found
    obtain ⟨-, rfl, rfl⟩ := found
    refine ⟨within_take inside, ?_⟩
    intro part member
    exact (within_drop inside (Nat.lt_succ_self p)).of_isInfix (isInfix_of_mem_cutAt member)

theorem dropSemicolonsRev_isSuffix (cs : List Char) : dropSemicolonsRev cs <:+ cs := by
  fun_induction dropSemicolonsRev cs with
  | case1 rest ih => exact ih.trans ((dropWhile_suffix _).trans (suffix_cons ';' rest))
  | case2 cs => exact suffix_rfl

theorem normalize_isInfix (cs : List Char) : normalize cs <:+: cs := by
  have semicolons := dropSemicolonsRev_isSuffix (Text.trim cs).reverse
  have after : Text.trim cs <:+: Text.trimStart cs := by
    have blanks : (Text.trimStart cs).reverse.dropWhile Text.isBlank <:+: _ :=
      (dropWhile_suffix _).isInfix
    simpa [Text.trim, Text.trimEnd] using reverse_infix.mpr blanks
  have before : Text.trimStart cs <:+: cs := (dropWhile_suffix _).isInfix
  have kept : normalize cs <:+: Text.trim cs := by
    simpa [normalize] using reverse_infix.mpr semicolons.isInfix
  exact kept.trans (after.trans before)

/-- The operand of a negation. -/
def operand? : List Char → Option (List Char)
  | '!' :: operand => if operand.head? = some '=' then none else some operand
  | _ => none

/-- The parts that evaluation goes on with: what stands in parentheses, and the operands of each
    operator that is tried. -/
def parts (cs : List Char) : List (List Char) :=
  let code := normalize cs
  (unwrap? code).toList ++
    (ternary? code).toList.flatMap (fun (condition, yes, no) => [condition, yes, no]) ++
    (comparisons code).flatMap (fun (_, left, right) => [left, right]) ++
    (summands? code).toList.flatMap (fun (first, rest) => first :: rest) ++
    (operand? code).toList

theorem mem_parts : part ∈ parts cs ↔
    unwrap? (normalize cs) = some part ∨
    (∃ condition yes no, ternary? (normalize cs) = some (condition, yes, no) ∧
      (part = condition ∨ part = yes ∨ part = no)) ∨
    (∃ op left right, (op, left, right) ∈ comparisons (normalize cs) ∧
      (part = left ∨ part = right)) ∨
    (∃ first rest, summands? (normalize cs) = some (first, rest) ∧ part ∈ first :: rest) ∨
    operand? (normalize cs) = some part := by
  simp [parts]

theorem within_of_operand? {operand : List Char} (found : operand? cs = some operand) :
    Within operand cs := by
  fun_cases operand? cs with
  | case1 rest isOther => simp [operand?, isOther] at found
  | case2 rest isNot =>
    simp only [operand?, isNot, if_false, Option.some.injEq] at found
    exact found ▸ within_cons '!' rest
  | case3 cs other => simp [operand?] at found

/-- Every part stands in the text and is shorter. -/
theorem within_of_mem_parts (member : part ∈ parts cs) : Within part cs := by
  refine Within.trans_isInfix ?_ (normalize_isInfix cs)
  rcases mem_parts.mp member with inner | ⟨condition, yes, no, found, same⟩ |
    ⟨op, left, right, found, same⟩ | ⟨first, rest, found, isSummand⟩ | operand
  · exact within_of_unwrap? inner
  · obtain ⟨within, within', within''⟩ := within_of_ternary? found
    rcases same with rfl | rfl | rfl <;> assumption
  · obtain ⟨within, within'⟩ := within_of_mem_comparisons found
    rcases same with rfl | rfl <;> assumption
  · obtain ⟨within, others⟩ := within_of_summands? found
    cases isSummand with
    | head => exact within
    | tail _ later => exact others part later
  · exact within_of_operand? operand

/-! ## The value of a text in terms of its parts -/

section Agree

variable {f g : List Char → Option Json} {code : List Char}

theorem ternaryValue?_congr (agree : ∀ condition yes no, ternary? code = some (condition, yes, no) →
    f condition = g condition ∧ f yes = g yes ∧ f no = g no) :
    ternaryValue? f code = ternaryValue? g code := by
  simp only [ternaryValue?]
  cases found : ternary? code with
  | none => rfl
  | some cut =>
    obtain ⟨condition, yes, no⟩ := cut
    obtain ⟨first, second, third⟩ := agree condition yes no found
    simp [first, second, third]

theorem comparisonValue?_congr {cuts : List (CompareOp × List Char × List Char)}
    (agree : ∀ cut ∈ cuts, f cut.2.1 = g cut.2.1 ∧ f cut.2.2 = g cut.2.2) :
    comparisonValue? f cuts = comparisonValue? g cuts := by
  induction cuts with
  | nil => rfl
  | cons cut cuts ih =>
    simp only [forall_mem_cons] at agree
    simp only [comparisonValue?, agree.1.1, agree.1.2, ih agree.2]

theorem addAll?_congr {acc : Json} {summands : List (List Char)}
    (agree : ∀ part ∈ summands, f part = g part) :
    addAll? f acc summands = addAll? g acc summands := by
  induction summands generalizing acc with
  | nil => rfl
  | cons part summands ih =>
    simp only [forall_mem_cons] at agree
    simp only [addAll?, agree.1]
    cases g part with
    | none => rfl
    | some v => cases acc.plus? v <;> simp [ih agree.2]

theorem sumValue?_congr (agree : ∀ first rest, summands? code = some (first, rest) →
    ∀ part ∈ first :: rest, f part = g part) : sumValue? f code = sumValue? g code := by
  simp only [sumValue?]
  cases found : summands? code with
  | none => rfl
  | some cut =>
    obtain ⟨first, rest⟩ := cut
    have summands := agree first rest found
    rw [forall_mem_cons] at summands
    have tail (acc : Json) : addAll? f acc rest = addAll? g acc rest := addAll?_congr summands.2
    simp [summands.1, tail]

theorem leafValue?_congr {scope : Scope} (agree : ∀ part, operand? code = some part → f part = g part) :
    leafValue? scope f code = leafValue? scope g code := by
  fun_cases operand? code with
  | case1 rest isOther => simp [leafValue?, isOther]
  | case2 rest isNot => simp [leafValue?, isNot, agree rest (by simp [operand?, isNot])]
  | case3 code other =>
    simp only [leafValue?]
    split
    next rest => exact absurd rfl (other rest)
    · rfl
    · rfl
    · rfl

/-- Only the values of the parts count. -/
theorem evalStep_congr {scope : Scope} {cs : List Char} (agree : ∀ part ∈ parts cs, f part = g part) :
    evalStep scope f cs = evalStep scope g cs := by
  have ternary : ternaryValue? f (normalize cs) = ternaryValue? g (normalize cs) := by
    apply ternaryValue?_congr
    intro condition yes no found
    have part {p : List Char} (same : p = condition ∨ p = yes ∨ p = no) : f p = g p :=
      agree p (mem_parts.mpr (.inr (.inl ⟨condition, yes, no, found, same⟩)))
    exact ⟨part (.inl rfl), part (.inr (.inl rfl)), part (.inr (.inr rfl))⟩
  have comparison : comparisonValue? f (comparisons (normalize cs)) =
      comparisonValue? g (comparisons (normalize cs)) := by
    apply comparisonValue?_congr
    rintro ⟨op, left, right⟩ found
    have part {p : List Char} (same : p = left ∨ p = right) : f p = g p :=
      agree p (mem_parts.mpr (.inr (.inr (.inl ⟨op, left, right, found, same⟩))))
    exact ⟨part (.inl rfl), part (.inr rfl)⟩
  have sum : sumValue? f (normalize cs) = sumValue? g (normalize cs) := by
    apply sumValue?_congr
    intro first rest found part isSummand
    exact agree part (mem_parts.mpr (.inr (.inr (.inr (.inl ⟨first, rest, found, isSummand⟩)))))
  have leaf : leafValue? scope f (normalize cs) = leafValue? scope g (normalize cs) := by
    apply leafValue?_congr
    intro part found
    exact agree part (mem_parts.mpr (.inr (.inr (.inr (.inr found)))))
  simp only [evalStep, ternary, comparison, sum, leaf]
  cases found : unwrap? (normalize cs) with
  | none => rfl
  | some inner => simp only [agree inner (mem_parts.mpr (.inl found))]

end Agree

/-- The value of a text is what its form makes of the values of its parts. -/
theorem eval?_eq (scope : Scope) (cs : List Char) :
    eval? scope cs = evalStep scope (eval? scope) cs := by
  rw [eval?]
  apply evalStep_congr
  intro part member
  simp [(within_of_mem_parts member).2]

/-! ## Blanks around a text -/

/-- A text with a first character that is no blank, and a last one that is neither a blank nor a
    semicolon. -/
structure IsTight (cs : List Char) : Prop where
  first : ∃ c, cs.head? = some c ∧ Text.isBlank c = false
  last : ∃ c, cs.getLast? = some c ∧ Text.isBlank c = false ∧ c ≠ ';'

theorem trimStart_padded (blank : ∀ c ∈ before, Text.isBlank c = true)
    (first : ∃ c, cs.head? = some c ∧ Text.isBlank c = false) :
    Text.trimStart (before ++ cs) = cs := by
  obtain ⟨c, isFirst, solid⟩ := first
  obtain ⟨rest, rfl⟩ := List.head?_eq_some_iff.mp isFirst
  simp [Text.trimStart, dropWhile_append_of_pos blank, solid]

theorem trimEnd_padded (blank : ∀ c ∈ after, Text.isBlank c = true)
    (last : ∃ c, cs.getLast? = some c ∧ Text.isBlank c = false) :
    Text.trimEnd (cs ++ after) = cs := by
  have mirrored : Text.trimStart (after.reverse ++ cs.reverse) = cs.reverse :=
    trimStart_padded (by simpa using blank) (by simpa [List.head?_reverse] using last)
  simp only [Text.trimStart] at mirrored
  simp [Text.trimEnd, mirrored]

/-- What remains of a tight text between blanks is the text. -/
theorem normalize_padded (tight : IsTight cs) (blankBefore : ∀ c ∈ before, Text.isBlank c = true)
    (blankAfter : ∀ c ∈ after, Text.isBlank c = true) :
    normalize (before ++ (cs ++ after)) = cs := by
  obtain ⟨c, isFirst, solidFirst⟩ := tight.first
  obtain ⟨d, isLast, solidLast, noSemicolon⟩ := tight.last
  have trimmed : Text.trim (before ++ (cs ++ after)) = cs := by
    rw [Text.trim, trimStart_padded blankBefore ⟨c, by simp [isFirst], solidFirst⟩,
      trimEnd_padded blankAfter ⟨d, isLast, solidLast⟩]
  have kept : dropSemicolonsRev cs.reverse = cs.reverse := by
    obtain ⟨front, rfl⟩ := List.getLast?_eq_some_iff.mp isLast
    simp [dropSemicolonsRev, noSemicolon]
  simp [normalize, trimmed, kept]

theorem normalize_of_isTight (tight : IsTight cs) : normalize cs = cs := by
  simpa using @normalize_padded cs [] [] tight (by simp) (by simp)

/-- Blanks around a text do not change its value. -/
theorem eval?_padded (scope : Scope) (tight : IsTight cs)
    (blankBefore : ∀ c ∈ before, Text.isBlank c = true)
    (blankAfter : ∀ c ∈ after, Text.isBlank c = true) :
    eval? scope (before ++ (cs ++ after)) = eval? scope cs := by
  rw [eval?_eq, eval?_eq scope cs]
  simp only [evalStep, normalize_padded tight blankBefore blankAfter, normalize_of_isTight tight]

theorem IsTight.isEmpty_eq_false (tight : IsTight cs) : cs.isEmpty = false := by
  obtain ⟨c, isFirst, -⟩ := tight.first
  cases cs with
  | nil => cases isFirst
  | cons d rest => rfl

/-! ## Forms -/

section Operators

variable {cs : List Char} (eval : List Char → Option Json)

theorem ternaryValue?_eq_none (absent : topLevel ['?'] cs = []) : ternaryValue? eval cs = none := by
  simp [ternaryValue?, ternary?, absent]

theorem comparisonValue?_eq_none (absent : ∀ op : CompareOp, topLevel op.symbol cs = []) :
    comparisonValue? eval (comparisons cs) = none := by
  have none : comparisons cs = [] := by
    simp [comparisons, comparison?, absent, filterMap_eq_nil_iff]
  rw [none, comparisonValue?]

theorem sumValue?_eq_none (absent : topLevel ['+'] cs = []) : sumValue? eval cs = none := by
  simp [sumValue?, summands?, absent]

end Operators

section Forms

variable {cs : List Char} (scope : Scope) (tight : IsTight cs) (noGroup : unwrap? cs = none)
include tight noGroup

/-- The value of a string literal. -/
theorem eval?_of_stringLiteral? {s : String} (isString : stringLiteral? cs = some s) :
    eval? scope cs = some (.str s) := by
  rw [eval?_eq]
  simp [evalStep, normalize_of_isTight tight, tight.isEmpty_eq_false, noGroup, isString]

/-- The value of a numeral. -/
theorem eval?_of_numeral {x : Binary64} (noString : stringLiteral? cs = none)
    (isNumeral : Text.readNumeral cs = .finite x) : eval? scope cs = some (.ofBinary64 x) := by
  rw [eval?_eq]
  simp [evalStep, normalize_of_isTight tight, tight.isEmpty_eq_false, noGroup, noString, isNumeral]

/-- The forms that are tried for a text that is no literal. -/
theorem eval?_of_noLiteral (noString : stringLiteral? cs = none)
    (noNumeral : Text.readNumeral cs = .other) :
    eval? scope cs = (word? cs).or ((ternaryValue? (eval? scope) cs).or
      ((comparisonValue? (eval? scope) (comparisons cs)).or
        ((sumValue? (eval? scope) cs).or (leafValue? scope (eval? scope) cs)))) := by
  rw [eval?_eq]
  simp [evalStep, normalize_of_isTight tight, tight.isEmpty_eq_false, noGroup, noString, noNumeral]

end Forms

end ReactiveView.Expr
