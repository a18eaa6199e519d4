import ReactiveView.Proofs.AtomEvaluation

/-!
# Values of expression texts

The text of an expression tree evaluates to the value of the tree.  Evaluation looks for operators in
the text, in a fixed order; for each kind of tree the operators that are looked for first are absent,
and the cut at the operator that is found gives the texts of the operands.
-/

namespace ReactiveView.Expr

open List

/-! ## Texts that begin with an operand -/

theorem hasBareQuote_append {quote : Char} (isQuote : quote = '"' ∨ quote = '\'')
    (pieces : List (Piece quote)) (rest : List Char) :
    hasBareQuote quote (pieces.flatMap Piece.text ++ quote :: rest) = true := by
  induction pieces with
  | nil => cases isQuote <;> simp [hasBareQuote, *]
  | cons piece pieces ih =>
    cases piece with
    | plain c bare => simp [Piece.text, hasBareQuote, bare, ih]
    | escaped c => simp [Piece.text, hasBareQuote, ih]

/-- A string with something after it is no string: the quote at its end has no backslash before it. -/
theorem stringLiteral?_append (s : StringText) {after : List Char} (filled : after ≠ []) :
    stringLiteral? (s.text ++ after) = none := by
  obtain ⟨quote, isQuote, pieces, noParenthesis⟩ := s
  have bare := hasBareQuote_append isQuote pieces after.dropLast
  have inner : (pieces.flatMap Piece.text ++ quote :: after).dropLast =
      pieces.flatMap Piece.text ++ quote :: after.dropLast := by
    rw [dropLast_append_of_ne_nil (by simp), dropLast_cons_of_ne_nil filled]
  cases isQuote with
  | inl double =>
    subst double
    simp [stringLiteral?, StringText.text, between?, inner, bare]
  | inr single =>
    subst single
    simp [stringLiteral?, StringText.text, between?, inner, bare]

/-- A tree in parentheses with something after it is not in parentheses as a whole. -/
theorem unwrap?_append (t : Tree) {after : List Char} (filled : after ≠ []) :
    unwrap? (parenthesised t.text ++ after) = none := by
  have text : parenthesised t.text ++ after = '(' :: (t.text ++ ')' :: after) := by
    simp [parenthesised]
  have inner : (t.text ++ ')' :: after).dropLast = t.text ++ ')' :: after.dropLast := by
    rw [dropLast_append_of_ne_nil (by simp), dropLast_cons_of_ne_nil filled]
  have closes : neverCloses 0 (t.text ++ ')' :: after.dropLast) = false := by
    rw [t.keepsLevel, neverCloses]
  rw [text, unwrap?, inner, closes]
  simp

theorem Operand.noLiteral_append (o : Operand) {after : List Char} (filled : after ≠ []) :
    unwrap? (o.text ++ after) = none ∧ stringLiteral? (o.text ++ after) = none := by
  cases o with
  | group t => exact ⟨unwrap?_append t filled, rfl⟩
  | atom a =>
    have plain (noString : ∀ s, a ≠ .string s) := Atom.noLiteral_append noString after
    cases a with
    | string s =>
      refine ⟨?_, stringLiteral?_append s filled⟩
      cases s.isQuote <;> simp [Operand.text, Atom.text, StringText.text, unwrap?, *]
    | integer _ | word _ | path _ => exact plain (by simp)

/-- A text that begins with an operand and has a blank after it is evaluated at its operators. -/
theorem eval?_of_operand {cs after : List Char} {scope : Scope} (o : Operand)
    (text : cs = o.text ++ after) (blank : ' ' ∈ after) (tight : IsTight cs) :
    eval? scope cs = (ternaryValue? (eval? scope) cs).or
      ((comparisonValue? (eval? scope) (comparisons cs)).or (sumValue? (eval? scope) cs)) := by
  have member : ' ' ∈ cs := text ▸ mem_append_right _ blank
  obtain ⟨noGroup, noString⟩ := o.noLiteral_append (ne_nil_of_mem blank)
  rw [← text] at noGroup noString
  have leaf : leafValue? scope (eval? scope) cs = none := by
    obtain ⟨c, rest, front, begins⟩ := o.exists_text_eq_cons
    have isFront : cs = c :: (rest ++ after) := by rw [text, front, cons_append]
    rw [isFront, leafValue?_of_beginsOperand begins, ← isFront]
    exact path?_eq_none scope member (by decide) (by decide)
  rw [eval?_operator tight noString noGroup member (by decide), leaf, Option.or_none]

/-- Blanks on either side of an operand do not change its value. -/
theorem Operand.eval?_blanks (scope : Scope) (o : Operand) :
    eval? scope (o.text ++ [' ']) = eval? scope o.text ∧
    eval? scope (' ' :: o.text) = eval? scope o.text ∧
    eval? scope (' ' :: (o.text ++ [' '])) = eval? scope o.text := by
  have blank : ∀ c ∈ [' '], Text.isBlank c = true := by simp [Text.isBlank, Text.blankRanges]
  have none : ∀ c ∈ ([] : List Char), Text.isBlank c = true := by simp
  have after := eval?_padded scope o.isTight none blank
  have before := eval?_padded scope o.isTight blank none
  rw [append_nil] at before
  exact ⟨after, before, eval?_padded scope o.isTight blank blank⟩

/-! ## Cuts -/

/-- An operator after a text that has no operators is found, and the scan goes on behind it. -/
theorem topLevelFrom_operator {u rest : List Char} {head : Char} {tail : List Char}
    (skips : Skips (head :: tail) 0 u) (inert : isInert head = true) (i : Nat) :
    topLevelFrom (head :: tail) .code 0 0 i (u ++ (head :: tail ++ rest)) =
      (i + u.length) ::
        topLevelFrom (head :: tail) .code 0 0 (i + u.length + (head :: tail).length) rest := by
  simp only [isInert, Bool.and_eq_true, Bool.not_eq_true'] at inert
  have begins : (head :: tail).isPrefixOf (head :: (tail ++ rest)) = true := by
    simp [List.isPrefixOf]
  have found (j : Nat) : topLevelFrom (head :: tail) .code 0 0 j (head :: (tail ++ rest)) =
      j :: topLevelFrom (head :: tail) .code 0 tail.length (j + 1) (tail ++ rest) := by
    simp [topLevelFrom, inert, begins]
  rw [skips, cons_append, found, topLevelFrom_skip, drop_left]
  congr 2
  simp
  omega

theorem drop_behind (u : List Char) (c : Char) (v : List Char) :
    (u ++ c :: v).drop (u.length + 1) = v := by
  rw [← drop_drop, drop_left, drop_one, tail_cons]

/-- The parts between plus signs, from position `i` on. -/
def cuts (i : Nat) (cs : List Char) : List (List Char) :=
  cutAt i cs (topLevelFrom ['+'] .code 0 0 i cs)

theorem cuts_of_skips {u : List Char} (skips : Skips ['+'] 0 u) (i : Nat) : cuts i u = [u] := by
  have scanned := skips i []
  rw [append_nil] at scanned
  rw [cuts, scanned, topLevelFrom, cutAt]

theorem cuts_append {u : List Char} (skips : Skips ['+'] 0 u) (i : Nat) (rest : List Char) :
    cuts i (u ++ '+' :: rest) = u :: cuts (i + u.length + 1) rest := by
  have found := @topLevelFrom_operator u rest '+' [] skips (by decide) i
  simp only [singleton_append, length_singleton] at found
  have before : i + u.length - i = u.length := by omega
  have behind : i + u.length + 1 - i = u.length + 1 := by omega
  rw [cuts, found, cutAt, before, behind, take_left, drop_behind, cuts]

theorem summands?_append {u : List Char} (filled : u ≠ []) (skips : Skips ['+'] 0 u)
    (rest : List Char) :
    summands? (u ++ '+' :: rest) = some (u, cuts (u.length + 1) rest) := by
  have found := @topLevelFrom_operator u rest '+' [] skips (by decide) 0
  have parts := cuts_append skips 0 rest
  simp only [singleton_append, Nat.zero_add] at found parts
  rw [cuts, found] at parts
  have later : u.length ≠ 0 := by simpa using filled
  rw [summands?, topLevel, found]
  simp only [if_neg later, parts]

/-! ## Sums -/

variable {scope : Scope}

/-- The values of the operands of a sum are added from left to right. -/
theorem addAll?_cuts (o : Operand) (more : List Operand) (acc : Json) (i : Nat)
    (values : ∀ o' ∈ o :: more, eval? scope o'.text = o'.value? scope) :
    addAll? (eval? scope) acc (cuts i (' ' :: (o.text ++ Operand.summandsText more))) =
      Operand.addAll? scope acc (o :: more) := by
  have blank : Skips ['+'] 0 [' '] := skips_blank (by decide)
  have front (o : Operand) : Skips ['+'] 0 (' ' :: o.text) :=
    blank.append (o.skips_outside (by decide))
  -- The last part has a blank before it, the others one on either side.
  induction more generalizing o acc i with
  | nil =>
    have part : cuts i (' ' :: o.text) = [' ' :: o.text] := cuts_of_skips (front o) i
    simp [Operand.summandsText, part, addAll?, Operand.addAll?, (o.eval?_blanks scope).2.1, values]
  | cons next rest ih =>
    rw [forall_mem_cons] at values
    have text : ' ' :: (o.text ++ Operand.summandsText (next :: rest)) =
        (' ' :: (o.text ++ [' '])) ++ '+' :: (' ' :: (next.text ++ Operand.summandsText rest)) := by
      simp [Operand.summandsText]
    have later (acc : Json) (i : Nat) := ih next acc i values.2
    have padded : Skips ['+'] 0 (' ' :: (o.text ++ [' '])) := (front o).append blank
    rw [text, cuts_append padded, addAll?, Operand.addAll?, (o.eval?_blanks scope).2.2, values.1]
    simp only [later]

theorem eval?_sum (first second : Operand) (more : List Operand)
    (values : ∀ o ∈ first :: second :: more, eval? scope o.text = o.value? scope) :
    eval? scope (Tree.sum first second more).text = (Tree.sum first second more).value? scope := by
  rw [forall_mem_cons] at values
  have text : (Tree.sum first second more).text = (first.text ++ [' ']) ++
      '+' :: (' ' :: (second.text ++ Operand.summandsText more)) := by
    simp [Tree.text]
  have noTernary := @Tree.ternaryValue?_text (.sum first second more) (eval? scope)
    (by simp [Tree.symbols])
  have noComparison := @Tree.comparisonValue?_text (.sum first second more) (eval? scope)
    (by simp [Tree.symbols])
  have skips : Skips ['+'] 0 (first.text ++ [' ']) :=
    (first.skips_outside (by decide)).append (skips_blank (by decide))
  have parts := summands?_append (by simp) skips (' ' :: (second.text ++ Operand.summandsText more))
  have forms := @eval?_of_operand (Tree.sum first second more).text _ scope first rfl (by simp)
    (Tree.isTight _)
  rw [forms, noTernary, noComparison, Option.none_or, Option.none_or, text, sumValue?, parts]
  simp only [Option.bind_eq_bind, Option.bind_some, (first.eval?_blanks scope).1, values.1,
    addAll?_cuts second more _ _ values.2, Operand.addAll?, Tree.value?]

/-! ## Comparisons -/

/-- The operators that are looked for before an operator do not occur in it. -/
theorem CompareOp.skips_of_before {op other : CompareOp}
    (before : other ∈ CompareOp.all.takeWhile (· ≠ op)) :
    Skips other.symbol 0 (' ' :: op.symbol ++ [' ']) := by
  intro i rest
  cases op <;> cases other <;> revert before <;>
    simp [CompareOp.all, CompareOp.symbol, topLevelFrom, isOpening, isClosing, isQuote]

theorem CompareOp.exists_symbol (op : CompareOp) :
    ∃ head tail, op.symbol = head :: tail ∧ isInert head = true := by
  cases op <;> exact ⟨_, _, rfl, by decide⟩

/-- The first cut is the one at an operator if none is found for those that come before it. -/
theorem comparisons_eq_cons {cs : List Char} {op : CompareOp}
    {parts : CompareOp × List Char × List Char}
    (absent : ∀ other ∈ CompareOp.all.takeWhile (· ≠ op), comparison? cs other = none)
    (found : comparison? cs op = some parts) : ∃ rest, comparisons cs = parts :: rest := by
  have order : ∃ after, CompareOp.all = CompareOp.all.takeWhile (· ≠ op) ++ op :: after := by
    cases op <;> exact ⟨_, rfl⟩
  obtain ⟨after, order⟩ := order
  refine ⟨after.filterMap (comparison? cs), ?_⟩
  calc comparisons cs
      = (CompareOp.all.takeWhile (· ≠ op) ++ op :: after).filterMap (comparison? cs) :=
        congrArg (List.filterMap (comparison? cs)) order
    _ = parts :: after.filterMap (comparison? cs) := by
        rw [filterMap_append, filterMap_eq_nil_iff.mpr absent, nil_append,
          filterMap_cons_some found]

theorem comparison?_append {u rest : List Char} (op : CompareOp) (skips : Skips op.symbol 0 u)
    (blank : u.getLast? = some ' ') :
    comparison? (u ++ (op.symbol ++ rest)) op = some (op, u, rest) := by
  obtain ⟨head, tail, symbol, inert⟩ := op.exists_symbol
  rw [symbol] at skips
  have found := @topLevelFrom_operator u rest head tail skips inert 0
  rw [← symbol, Nat.zero_add] at found
  have behind : (u ++ (op.symbol ++ rest)).drop (u.length + op.symbol.length) = rest := by
    rw [← drop_drop, drop_left, drop_left]
  simp [comparison?, topLevel, found, behind, blank]

theorem eval?_compare (op : CompareOp) (left right : Operand)
    (leftValue : eval? scope left.text = left.value? scope)
    (rightValue : eval? scope right.text = right.value? scope) :
    eval? scope (Tree.compare op left right).text = (Tree.compare op left right).value? scope := by
  have text : (Tree.compare op left right).text =
      left.text ++ [' '] ++ (op.symbol ++ ' ' :: right.text) := by
    simp [Tree.text]
  have noTernary := @Tree.ternaryValue?_text (.compare op left right) (eval? scope)
    (by cases op <;> simp [Tree.symbols, CompareOp.symbol])
  have noSum := @Tree.sumValue?_text (.compare op left right) (eval? scope)
    (by cases op <;> simp [Tree.symbols, CompareOp.symbol])
  have operand (o : Operand) (op : CompareOp) : Skips op.symbol 0 o.text := by
    cases op <;> exact o.skips_outside (by decide)
  have found : comparison? (Tree.compare op left right).text op =
      some (op, left.text ++ [' '], ' ' :: right.text) := by
    rw [text]
    apply comparison?_append op _ (by simp)
    apply (operand left op).append
    cases op <;> exact skips_blank (by decide)
  -- The operators that are looked for earlier may begin inside this one but do not occur in it.
  have absent : ∀ other ∈ CompareOp.all.takeWhile (· ≠ op),
      comparison? (Tree.compare op left right).text other = none := by
    intro other before
    have skips : Skips other.symbol 0 (Tree.compare op left right).text :=
      (operand left other).append ((CompareOp.skips_of_before before).append (operand right other))
    simp [comparison?, skips.topLevel_eq_nil]
  obtain ⟨rest, isFirst⟩ := comparisons_eq_cons absent found
  have forms := @eval?_of_operand (Tree.compare op left right).text _ scope left rfl (by simp)
    (Tree.isTight _)
  rw [forms, noTernary, noSum, Option.none_or, Option.or_none, isFirst, comparisonValue?,
    (left.eval?_blanks scope).1, leftValue, (right.eval?_blanks scope).2.1, rightValue]
  simp [Tree.value?]

/-! ## Conditionals and negations -/

theorem ternary?_append {u v rest : List Char} (question : Skips ['?'] 0 u)
    (colon : Skips [':'] 0 (u ++ '?' :: v)) :
    ternary? (u ++ '?' :: (v ++ ':' :: rest)) = some (u, v, rest) := by
  have atQuestion := @topLevelFrom_operator u (v ++ ':' :: rest) '?' [] question (by decide) 0
  have atColon := @topLevelFrom_operator (u ++ '?' :: v) rest ':' [] colon (by decide) 0
  have split : u ++ '?' :: (v ++ ':' :: rest) = u ++ '?' :: v ++ ':' :: rest := by simp
  have later : u.length < (u ++ '?' :: v).length := by simp
  simp only [singleton_append, Nat.zero_add] at atQuestion atColon
  rw [ternary?, topLevel, topLevel, atQuestion, split, atColon]
  -- The first colon is behind the question mark already.
  simp only [List.head?_cons, Option.bind_eq_bind, Option.bind_some, List.find?_cons, later,
    decide_true, drop_behind]
  rw [take_left, drop_behind, ← split, take_left]
  rfl

theorem eval?_choose (condition yes no : Operand)
    (conditionValue : eval? scope condition.text = condition.value? scope)
    (yesValue : eval? scope yes.text = yes.value? scope)
    (noValue : eval? scope no.text = no.value? scope) :
    eval? scope (Tree.choose condition yes no).text = (Tree.choose condition yes no).value? scope := by
  have noComparison := @Tree.comparisonValue?_text (.choose condition yes no) (eval? scope)
    (by simp [Tree.symbols])
  have noSum := @Tree.sumValue?_text (.choose condition yes no) (eval? scope)
    (by simp [Tree.symbols])
  have parts : ternary? (Tree.choose condition yes no).text =
      some (condition.text ++ [' '], ' ' :: (yes.text ++ [' ']), ' ' :: no.text) := by
    have text : (Tree.choose condition yes no).text = (condition.text ++ [' ']) ++
        '?' :: ((' ' :: (yes.text ++ [' '])) ++ ':' :: ' ' :: no.text) := by
      simp [Tree.text]
    have symbols : Skips [':'] 0 [' ', '?', ' '] := skips_symbols (by decide) (.inr (by decide))
    have blank : Skips [':'] 0 [' '] := skips_blank (by decide)
    have front := (condition.skips_outside (by decide)).append
      (symbols.append ((yes.skips_outside (by decide)).append blank))
    rw [text]
    apply ternary?_append
    · exact (condition.skips_outside (by decide)).append (skips_blank (by decide))
    · simpa using front
  have forms := @eval?_of_operand (Tree.choose condition yes no).text _ scope condition rfl (by simp)
    (Tree.isTight _)
  rw [forms, noComparison, noSum, Option.or_none, Option.or_none, ternaryValue?, parts]
  simp only [Option.bind_eq_bind, Option.bind_some, (condition.eval?_blanks scope).1, conditionValue,
    (yes.eval?_blanks scope).2.2, yesValue, (no.eval?_blanks scope).2.1, noValue, Tree.value?]

theorem eval?_not (o : Operand) (value : eval? scope o.text = o.value? scope) :
    eval? scope (Tree.not o).text = (Tree.not o).value? scope := by
  have noTernary := @Tree.ternaryValue?_text (.not o) (eval? scope) (by simp [Tree.symbols])
  have noSum := @Tree.sumValue?_text (.not o) (eval? scope) (by simp [Tree.symbols])
  obtain ⟨c, rest, text, begins⟩ := o.exists_text_eq_cons
  have noEquals : c ≠ '=' := by
    rintro rfl
    cases begins
  -- An exclamation mark is found as a comparison only with an equals sign behind it.
  have noInequality (tail : List Char) : topLevel ('!' :: '=' :: tail) (Tree.not o).text = [] := by
    have step : topLevelFrom ('!' :: '=' :: tail) .code 0 0 0 ('!' :: o.text) =
        topLevelFrom ('!' :: '=' :: tail) .code 0 0 1 o.text := by
      simp [topLevelFrom, isOpening, isClosing, isQuote, text, noEquals.symm]
    have scanned := @Operand.skips_outside o '!' ('=' :: tail) (by decide) 1 []
    rw [append_nil] at scanned
    rw [topLevel, Tree.text, step, scanned, topLevelFrom]
  have noComparison := comparisonValue?_eq_none (eval? scope) fun op =>
    show topLevel op.symbol (Tree.not o).text = [] from by
      cases op with
      | neStrict => exact noInequality ['=']
      | ne => exact noInequality []
      | eqStrict | eq | ge | le | gt | lt =>
        exact Tree.topLevel_eq_nil (by decide) (by simp [Tree.symbols])
  rw [eval?_operator (Tree.not o).isTight rfl rfl mem_cons_self (by decide), noTernary,
    noComparison, noSum, Option.none_or, Option.none_or, Option.none_or]
  have noOperator : o.text.head? ≠ some '=' := by simp [text, noEquals]
  rw [Tree.text, leafValue?, if_neg noOperator, value, Tree.value?]

/-! ## Trees -/

mutual

theorem Operand.eval?_text (scope : Scope) : ∀ o : Operand, eval? scope o.text = o.value? scope
  | .atom a => a.eval?_text scope
  | .group t => by
    have inside : neverCloses 0 t.text = true := by
      have level := t.keepsLevel 0 []
      rwa [append_nil] at level
    rw [Operand.text, eval?_of_neverCloses scope inside, t.eval?_text scope, Operand.value?]

theorem Tree.eval?_text (scope : Scope) : ∀ t : Tree, eval? scope t.text = t.value? scope
  | .operand o => o.eval?_text scope
  | .sum first second more => by
    apply eval?_sum
    simp only [forall_mem_cons]
    exact ⟨first.eval?_text scope, second.eval?_text scope, Operand.eval?_summands scope more⟩
  | .compare op left right =>
    eval?_compare op left right (left.eval?_text scope) (right.eval?_text scope)
  | .choose condition yes no =>
    eval?_choose condition yes no (condition.eval?_text scope) (yes.eval?_text scope)
      (no.eval?_text scope)
  | .not o => eval?_not o (o.eval?_text scope)

theorem Operand.eval?_summands (scope : Scope) :
    ∀ (more : List Operand), ∀ o ∈ more, eval? scope o.text = o.value? scope
  | [] => by simp
  | o :: rest => by
    simp only [forall_mem_cons]
    exact ⟨o.eval?_text scope, Operand.eval?_summands scope rest⟩

end

/-- The text of an expression has the value of the expression.  Without a value it evaluates to
    `null`. -/
theorem eval_ofList_text (scope : Scope) (t : Tree) :
    eval? scope t.text = t.value? scope ∧
    eval scope (String.ofList t.text) = (t.value? scope).getD .null := by
  refine ⟨t.eval?_text scope, ?_⟩
  rw [eval, String.toList_ofList, t.eval?_text scope]

example :
    let seven : IntegerText := ⟨false, ['7'], by simp, by simp, by decide⟩
    let ten : IntegerText := ⟨false, ['1', '0'], by simp, by simp, by decide⟩
    let t : Tree := .not (.group (.compare .ge (.atom (.integer seven)) (.atom (.integer ten))))
    String.ofList t.text = "!(7 >= 10)" ∧ (t.value? .empty).map Json.truthy = some true := by
  decide

/-- A sum adds two integers exactly while the result counts as an integer value. -/
theorem eval?_sum_of_integers {scope : Scope} {first second : Operand} {i j : Int}
    (left : first.value? scope = some (.num (.int i)))
    (right : second.value? scope = some (.num (.int j))) (leftSmall : i.natAbs < integerBound)
    (rightSmall : j.natAbs < integerBound) (small : (i + j).natAbs < integerBound) :
    eval? scope (Tree.sum first second []).text = some (.num (.int (i + j))) := by
  rw [Tree.eval?_text, Tree.value?, left, right]
  simp [Json.plus?_int leftSmall rightSmall small, Operand.addAll?]

/-- A value that is no number is joined to the other summand as text. -/
theorem eval?_sum_of_text {scope : Scope} {first second : Operand} {a b : Json}
    (left : first.value? scope = some a) (right : second.value? scope = some b)
    (noNumber : (∀ n, a ≠ .num n) ∨ ∀ n, b ≠ .num n) :
    eval? scope (Tree.sum first second []).text = some (.str (a.display ++ b.display)) := by
  have joined : a.plus? b = some (.str (a.display ++ b.display)) := by
    cases a <;> cases b <;> simp_all [Json.plus?, Json.toBinary64?]
  rw [Tree.eval?_text, Tree.value?, left, right]
  simp [joined, Operand.addAll?]

example :
    let one : IntegerText := ⟨false, ['1'], by simp, by simp, by decide⟩
    let two : IntegerText := ⟨true, ['2'], by simp, by simp, by decide⟩
    let t : Tree := .sum (.atom (.integer one)) (.atom (.integer two)) [.atom (.word .true)]
    String.ofList t.text = "1 + -2 + true" ∧ t.value? .empty = some (.str "-1true") :=
  ⟨rfl, rfl⟩

end ReactiveView.Expr
