import ReactiveView.Proofs.OperatorTexts

/-!
# Texts in parentheses

Parentheses around a text are recognised by counting the parentheses in it, those in strings included,
while operators are looked for outside strings only.  A text whose count never falls below zero has
the same value with and without parentheses around it.  A text whose brackets outside strings are in
order, but which has a closing parenthesis too many in a string, has no value any more when it is put
in parentheses.
-/

namespace ReactiveView.Expr

/-- A text in parentheses. -/
def parenthesised (cs : List Char) : List Char := '(' :: (cs ++ [')'])

/-- Whether every closing bracket outside strings has an opening bracket of the text before it, given
    `depth` open ones. -/
def closesOwn (mode : ScanMode) (depth : Nat) : List Char → Bool
  | [] => true
  | c :: rest =>
    match mode with
    | .escaped q => closesOwn (.quoted q) depth rest
    | .quoted q =>
      let mode := if c = q then .code else if c = '\\' then .escaped q else .quoted q
      closesOwn mode depth rest
    | .code =>
      if isOpening c then closesOwn .code (depth + 1) rest
      else if isClosing c then
        match depth with
        | 0 => false
        | depth + 1 => closesOwn .code depth rest
      else if isQuote c then closesOwn (.quoted c) depth rest
      else closesOwn .code depth rest

theorem isTight_parenthesised (cs : List Char) : IsTight (parenthesised cs) where
  first := ⟨'(', rfl, by decide⟩
  last := ⟨')', by simp [parenthesised, List.getLast?_cons], by decide⟩

theorem unwrap?_parenthesised (cs : List Char) :
    unwrap? (parenthesised cs) = if neverCloses 0 cs then some cs else none := by
  simp [unwrap?, parenthesised]

/-- Parentheses that are recognised do not change the value. -/
theorem eval?_of_neverCloses (scope : Scope) {cs : List Char} (inside : neverCloses 0 cs = true) :
    eval? scope (parenthesised cs) = eval? scope cs := by
  have filled : (parenthesised cs).isEmpty = false := rfl
  rw [eval?_eq]
  simp [evalStep, normalize_of_isTight (isTight_parenthesised cs), filled, unwrap?_parenthesised,
    inside]

/-- No operator stands outside brackets after a bracket that only the last character closes. -/
theorem topLevelFrom_of_closesOwn {op cs : List Char} {mode : ScanMode} {depth i : Nat}
    (own : closesOwn mode depth cs = true) :
    topLevelFrom op mode (depth + 1) 0 i (cs ++ [')']) = [] := by
  induction cs generalizing mode depth i with
  | nil =>
    cases mode with
    | code => simp [topLevelFrom, isOpening, isClosing]
    | quoted q => simp [topLevelFrom]
    | escaped q => simp [topLevelFrom]
  | cons c rest ih =>
    cases mode with
    | escaped q => exact ih own
    | quoted q => exact ih own
    | code =>
      simp only [closesOwn] at own
      simp only [List.cons_append, topLevelFrom]
      by_cases opens : isOpening c = true
      · simp only [opens, if_true] at own ⊢
        exact_mod_cast ih own
      · simp only [opens, Bool.false_eq_true, if_false] at own ⊢
        by_cases closes : isClosing c = true
        · simp only [closes, if_true] at own ⊢
          cases depth with
          | zero => cases own
          | succ depth => simpa using ih own
        · simp only [closes, Bool.false_eq_true, if_false] at own ⊢
          by_cases quotes : isQuote c = true
          · simp only [quotes, if_true] at own ⊢
            exact ih own
          · have inside : ¬((depth : Int) + 1 = 0) := by omega
            simp only [quotes, Bool.false_eq_true, if_false, inside, false_and] at own ⊢
            exact ih own

theorem topLevel_parenthesised {op cs : List Char} (own : closesOwn .code 0 cs = true) :
    topLevel op (parenthesised cs) = [] := by
  simp only [topLevel, parenthesised, topLevelFrom]
  exact_mod_cast topLevelFrom_of_closesOwn own

/-- A text in parentheses that are not recognised is read as a path, which it is not. -/
theorem eval?_of_closesOwn (scope : Scope) {cs : List Char} (own : closesOwn .code 0 cs = true)
    (outside : neverCloses 0 cs = false) : eval? scope (parenthesised cs) = none := by
  have noOperator (op : List Char) : topLevel op (parenthesised cs) = [] :=
    topLevel_parenthesised own
  have isParenthesis : '(' ∈ parenthesised cs := List.mem_cons_self
  have noPath := path?_eq_none scope isParenthesis (by decide) (by decide)
  rw [eval?_operator (isTight_parenthesised cs) rfl (by simp [unwrap?_parenthesised, outside])
    isParenthesis (by decide)]
  rw [ternaryValue?_eq_none _ (noOperator _), comparisonValue?_eq_none _ fun op => noOperator _,
    sumValue?_eq_none _ (noOperator _)]
  simpa [leafValue?, parenthesised] using noPath

/-- A text in parentheses has the value of the text, if no closing parenthesis in it, strings included,
    is without an opening one.  If the brackets outside strings are in order but the parentheses with
    those in strings are not, then the text in parentheses has no value. -/
theorem eval_parenthesised (scope : Scope) (e : String) :
    (neverCloses 0 e.toList = true → ∀ v, eval? scope e.toList = some v →
      eval scope ("(" ++ e ++ ")") = v) ∧
    (neverCloses 0 e.toList = false → closesOwn .code 0 e.toList = true →
      eval scope ("(" ++ e ++ ")") = .null) := by
  have text : ("(" ++ e ++ ")").toList = parenthesised e.toList := by simp [parenthesised]
  simp only [eval, text]
  constructor
  · intro inside v value
    simp [eval?_of_neverCloses scope inside, value]
  · intro outside own
    simp [eval?_of_closesOwn scope own outside]

/-- The value of a string with a closing parenthesis is lost in parentheses. -/
theorem literal_in_parentheses_isLost :
    eval? .empty "')'".toList = some (.str ")") ∧ eval .empty "(')')" = .null := by
  have tight : IsTight "')'".toList := ⟨⟨'\'', rfl, by decide⟩, ⟨'\'', rfl, by decide⟩⟩
  have lost : eval? .empty (parenthesised "')'".toList) = none :=
    eval?_of_closesOwn .empty (by decide) (by decide)
  have text : "(')')".toList = parenthesised "')'".toList := rfl
  exact ⟨eval?_of_stringLiteral? .empty tight rfl rfl, by simp only [eval, text, lost]; rfl⟩

end ReactiveView.Expr
