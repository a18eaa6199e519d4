import ReactiveView.Proofs.ExpressionTrees

/-!
# Closed texts

Operands and trees have texts in which every bracket and every string is closed.  A scan for an
operator passes over an operand, and over a tree inside brackets (`Skips`); a count of parentheses is
the same after a tree as before it (`KeepsLevel`).  Neither end of a tree is a blank.
-/

namespace ReactiveView.Expr

open List

/-! ## Characters -/

theorem isBlank_of_ascii {c : Char} (low : 32 < c.toNat) (high : c.toNat < 127) :
    Text.isBlank c = false := by
  simp [Text.isBlank, Text.blankRanges]
  omega

theorem toNat_of_isIdentPart {c : Char} (isPart : isIdentPart c = true) :
    32 < c.toNat ∧ c.toNat < 127 := by
  rw [isIdentPart, Bool.or_eq_true, isIdentStart_iff, isDigit_iff] at isPart
  omega

/-- The characters that operators begin with. -/
def operatorHeads : List Char := ['?', ':', '+', '=', '!', '>', '<']

/-- A character that neither opens nor closes a bracket or a string. -/
def isInert (c : Char) : Bool := !isOpening c && !isClosing c && !isQuote c

/-- The characters that atoms other than strings consist of. -/
def isAtomChar (c : Char) : Bool := isIdentPart c || c = '.' || c = '-'

section AtomChar

variable {c : Char} (isChar : isAtomChar c = true)
include isChar

theorem ne_of_isAtomChar {d : Char} (other : isAtomChar d = false) : c ≠ d := by
  rintro rfl
  simp [other] at isChar

theorem isInert_of_isAtomChar : isInert c = true := by
  have other (d : Char) (other : isAtomChar d = false) : c ≠ d := ne_of_isAtomChar isChar other
  simp [isInert, isOpening, isClosing, isQuote, other '(' (by decide), other ')' (by decide),
    other '[' (by decide), other ']' (by decide), other '{' (by decide), other '}' (by decide),
    other '"' (by decide), other '\'' (by decide), other '`' (by decide)]

theorem not_mem_operatorHeads : c ∉ operatorHeads := by
  intro isHead
  have other : operatorHeads.all (fun d => !isAtomChar d) = true := by decide
  simpa [isChar] using all_eq_true.mp other c isHead

end AtomChar

theorem isAtomChar_of_isIdentPart {c : Char} (isPart : isIdentPart c = true) :
    isAtomChar c = true := by
  simp [isAtomChar, isPart]

theorem isIdentPart_of_isDigit {c : Char} (isDigit : c.isDigit = true) : isIdentPart c = true := by
  simp [isIdentPart, isDigit]

theorem IntegerText.isAtomChar_of_mem (n : IntegerText) {c : Char} (member : c ∈ n.text) :
    isAtomChar c = true := by
  have signed : c = '-' ∨ c ∈ n.digits := by
    rw [IntegerText.text] at member
    split at member
    · simpa using member
    · exact .inr member
  cases signed with
  | inl isSign => simp [isAtomChar, isSign]
  | inr isDigit => exact isAtomChar_of_isIdentPart (isIdentPart_of_isDigit (n.areDigits c isDigit))

theorem PathText.isAtomChar_of_mem (p : PathText) {c : Char} (member : c ∈ p.text) :
    isAtomChar c = true := by
  have name {s : List Char} (isName : s ∈ p.first :: p.rest) (inName : c ∈ s) :
      isAtomChar c = true :=
    isAtomChar_of_isIdentPart (isIdentPart_of_isIdent (p.areNames s isName) inName)
  simp only [PathText.text, mem_append, mem_flatMap, mem_cons] at member
  cases member with
  | inl inFirst => exact name mem_cons_self inFirst
  | inr later =>
    obtain ⟨s, isName, isDot | inName⟩ := later
    · simp [isAtomChar, isDot]
    · exact name (mem_cons_of_mem _ isName) inName

theorem Atom.isAtomChar_of_mem {a : Atom} (noString : ∀ s, a ≠ .string s) {c : Char}
    (member : c ∈ a.text) : isAtomChar c = true := by
  cases a with
  | integer n => exact n.isAtomChar_of_mem member
  | word w =>
    have letters : w.spelling.toList.all isAtomChar = true := by cases w <;> decide
    exact all_eq_true.mp letters c member
  | string s => exact absurd rfl (noString s)
  | path p => exact p.isAtomChar_of_mem member

/-! ## Scans for operators -/

/-- A scan for `op` at a depth passes over the text without finding anything. -/
def Skips (op : List Char) (depth : Int) (u : List Char) : Prop :=
  ∀ i rest, topLevelFrom op .code depth 0 i (u ++ rest) =
    topLevelFrom op .code depth 0 (i + u.length) rest

namespace Skips

variable {op u v : List Char} {depth : Int}

theorem append (first : Skips op depth u) (second : Skips op depth v) : Skips op depth (u ++ v) := by
  intro i rest
  rw [append_assoc, first, second, length_append, Nat.add_assoc]

theorem topLevel_eq_nil (skips : Skips op 0 u) : topLevel op u = [] := by
  have scanned := skips 0 []
  rw [append_nil] at scanned
  rw [topLevel, scanned, topLevelFrom]

/-- Characters that are no brackets and no quotes are passed over inside brackets, and outside of them
    if the operator does not begin with them. -/
theorem of_inert {head : Char} {tail : List Char}
    (inert : ∀ c ∈ u, isInert c = true ∧ (depth ≠ 0 ∨ c ≠ head)) : Skips (head :: tail) depth u := by
  intro i rest
  induction u generalizing i with
  | nil => rfl
  | cons c u ih =>
    rw [forall_mem_cons] at inert
    obtain ⟨⟨isInert, silent⟩, later⟩ := inert
    simp only [Expr.isInert, Bool.and_eq_true, Bool.not_eq_true'] at isInert
    have nothing : ¬(depth = 0 ∧ (head :: tail).isPrefixOf (c :: (u ++ rest)) = true) := by
      rintro ⟨outside, begins⟩
      simp only [List.isPrefixOf, Bool.and_eq_true, beq_iff_eq] at begins
      cases silent with
      | inl inside => exact inside outside
      | inr other => exact other begins.1.symm
    have step : topLevelFrom (head :: tail) .code depth 0 i (c :: (u ++ rest)) =
        topLevelFrom (head :: tail) .code depth 0 (i + 1) (u ++ rest) := by
      simp only [topLevelFrom, isInert, Bool.false_eq_true, if_false, if_neg nothing]
    rw [cons_append, step, ih later, length_cons]
    congr 1
    omega

/-- Inside a string, pieces are passed over up to the quote that ends it. -/
theorem topLevelFrom_quoted {quote : Char} (isQuote : quote = '"' ∨ quote = '\'')
    (pieces : List (Piece quote)) (i : Nat) (rest : List Char) :
    topLevelFrom op (.quoted quote) depth 0 i (pieces.flatMap Piece.text ++ quote :: rest) =
      topLevelFrom op .code depth 0 (i + (pieces.flatMap Piece.text).length + 1) rest := by
  induction pieces generalizing i with
  | nil => simp [topLevelFrom]
  | cons piece pieces ih =>
    have noEscape : '\\' ≠ quote := by
      cases isQuote <;> simp [*]
    cases piece with
    | plain c bare =>
      have step := ih (i + 1)
      simp [Piece.text, topLevelFrom, bare, step]
      congr 1
      omega
    | escaped c =>
      have step := ih (i + 1 + 1)
      simp [Piece.text, topLevelFrom, noEscape, step]
      congr 1
      omega

/-- A string is passed over. -/
theorem quoted {quote : Char} (isQuote : quote = '"' ∨ quote = '\'') (pieces : List (Piece quote)) :
    Skips op depth (quote :: (pieces.flatMap Piece.text ++ [quote])) := by
  intro i rest
  have opens : isOpening quote = false ∧ isClosing quote = false ∧ Expr.isQuote quote = true := by
    cases isQuote <;> simp [isOpening, isClosing, Expr.isQuote, *]
  have scanned := @topLevelFrom_quoted op depth _ isQuote pieces (i + 1) rest
  simp [topLevelFrom, opens, scanned]
  congr 1
  omega

theorem string (s : StringText) : Skips op depth s.text := quoted s.isQuote s.pieces

/-- Brackets are passed over if what they enclose is, one level deeper. -/
theorem bracketed {opening closing : Char} (isFirst : isOpening opening = true)
    (isLast : isClosing closing = true) (inside : Skips op (depth + 1) u) :
    Skips op depth (opening :: (u ++ [closing])) := by
  intro i rest
  have opens : topLevelFrom op .code depth 0 i (opening :: (u ++ closing :: rest)) =
      topLevelFrom op .code (depth + 1) 0 (i + 1) (u ++ closing :: rest) := by
    simp [topLevelFrom, isFirst]
  have noOpening : isOpening closing = false := by
    simp only [isClosing, Bool.or_eq_true, decide_eq_true_eq] at isLast
    obtain (rfl | rfl) | rfl := isLast <;> rfl
  have closes (j : Nat) : topLevelFrom op .code (depth + 1) 0 j (closing :: rest) =
      topLevelFrom op .code depth 0 (j + 1) rest := by
    simp [topLevelFrom, noOpening, isLast]
  have text : opening :: (u ++ [closing]) ++ rest = opening :: (u ++ closing :: rest) := by simp
  rw [text, opens, inside, closes]
  congr 1
  simp
  omega

theorem parenthesised (inside : Skips op (depth + 1) u) : Skips op depth (Expr.parenthesised u) :=
  bracketed (by decide) (by decide) inside

end Skips

theorem Atom.skips (a : Atom) {head : Char} {tail : List Char} {depth : Int}
    (isHead : head ∈ operatorHeads) : Skips (head :: tail) depth a.text := by
  have plain (noString : ∀ s, a ≠ .string s) : Skips (head :: tail) depth a.text := by
    apply Skips.of_inert
    intro c member
    have isChar := a.isAtomChar_of_mem noString member
    refine ⟨isInert_of_isAtomChar isChar, .inr ?_⟩
    rintro rfl
    exact not_mem_operatorHeads isChar isHead
  cases a with
  | string s => exact .string s
  | integer _ | word _ | path _ => exact plain (by simp)

/-- The characters of a tree that belong to none of its operands. -/
def Tree.symbols : Tree → List Char
  | .operand _ => []
  | .sum _ _ _ => [' ', '+']
  | .compare op _ _ => ' ' :: op.symbol
  | .choose _ _ _ => [' ', '?', ':']
  | .not _ => ['!']

/-- Symbols are passed over inside brackets, and outside of them if the operator does not begin with
    one of them. -/
theorem skips_symbols {symbols : List Char} {head : Char} {tail : List Char} {depth : Int}
    (inert : symbols.all isInert = true) (silent : 0 < depth ∨ head ∉ symbols) :
    Skips (head :: tail) depth symbols := by
  apply Skips.of_inert
  intro c member
  refine ⟨all_eq_true.mp inert c member, ?_⟩
  cases silent with
  | inl inside => exact .inl (by omega)
  | inr other => exact .inr fun same => other (same ▸ member)

mutual

theorem Operand.skips : ∀ (o : Operand) {head : Char} {tail : List Char} {depth : Int},
    head ∈ operatorHeads → 0 ≤ depth → Skips (head :: tail) depth o.text
  | .atom a, _, _, _, isHead, _ => a.skips isHead
  | .group t, _, _, _, isHead, _ => .parenthesised (t.skips isHead (by omega) (.inl (by omega)))

/-- A scan passes over a tree inside brackets.  Outside of brackets it does so if the operator it looks
    for does not begin with a symbol of the tree. -/
theorem Tree.skips : ∀ (t : Tree) {head : Char} {tail : List Char} {depth : Int},
    head ∈ operatorHeads → 0 ≤ depth → 0 < depth ∨ head ∉ t.symbols →
      Skips (head :: tail) depth t.text
  | .operand o, _, _, _, isHead, level, _ => o.skips isHead level
  | .sum first second more, head, tail, depth, isHead, level, silent => by
    have symbols : Skips (head :: tail) depth [' ', '+', ' '] :=
      skips_symbols (by decide) (silent.imp_right (by simp +contextual [Tree.symbols]))
    exact (first.skips isHead level).append (symbols.append
      ((second.skips isHead level).append (Operand.skips_summands more isHead level symbols)))
  | .compare op left right, head, tail, depth, isHead, level, silent => by
    have symbols : Skips (head :: tail) depth (' ' :: op.symbol ++ [' ']) :=
      skips_symbols (by cases op <;> decide)
        (silent.imp_right (by simp +contextual [Tree.symbols]))
    exact (left.skips isHead level).append (symbols.append (right.skips isHead level))
  | .choose condition yes no, head, tail, depth, isHead, level, silent => by
    have question : Skips (head :: tail) depth [' ', '?', ' '] :=
      skips_symbols (by decide) (silent.imp_right (by simp +contextual [Tree.symbols]))
    have colon : Skips (head :: tail) depth [' ', ':', ' '] :=
      skips_symbols (by decide) (silent.imp_right (by simp +contextual [Tree.symbols]))
    exact (condition.skips isHead level).append (question.append
      ((yes.skips isHead level).append (colon.append (no.skips isHead level))))
  | .not o, head, tail, depth, isHead, level, silent => by
    have symbol : Skips (head :: tail) depth ['!'] := skips_symbols (by decide) silent
    exact symbol.append (o.skips isHead level)

theorem Operand.skips_summands : ∀ (more : List Operand) {head : Char} {tail : List Char}
    {depth : Int}, head ∈ operatorHeads → 0 ≤ depth → Skips (head :: tail) depth [' ', '+', ' '] →
      Skips (head :: tail) depth (Operand.summandsText more)
  | [], _, _, _, _, _, _ => fun _ _ => rfl
  | o :: rest, _, _, _, isHead, level, symbols => symbols.append
      ((o.skips isHead level).append (Operand.skips_summands rest isHead level symbols))

end

theorem Operand.skips_outside (o : Operand) {head : Char} {tail : List Char}
    (isHead : head ∈ operatorHeads) : Skips (head :: tail) 0 o.text := o.skips isHead (Int.le_refl 0)

theorem skips_blank {head : Char} {tail : List Char} (isHead : head ∈ operatorHeads) :
    Skips (head :: tail) 0 [' '] := by
  apply skips_symbols (by decide) (.inr _)
  intro isBlank
  rw [mem_singleton.mp isBlank] at isHead
  revert isHead
  decide

/-! ## Operators that are absent -/

namespace Tree

variable {t : Tree} (eval : List Char → Option Json)

/-- No operator of a tree begins with a character that is not among its symbols. -/
theorem topLevel_eq_nil {head : Char} {tail : List Char} (isHead : head ∈ operatorHeads)
    (silent : head ∉ t.symbols) : topLevel (head :: tail) t.text = [] :=
  (t.skips isHead (Int.le_refl 0) (.inr silent)).topLevel_eq_nil

theorem ternaryValue?_text (silent : '?' ∉ t.symbols) : ternaryValue? eval t.text = none :=
  ternaryValue?_eq_none eval (topLevel_eq_nil (by decide) silent)

theorem sumValue?_text (silent : '+' ∉ t.symbols) : sumValue? eval t.text = none :=
  sumValue?_eq_none eval (topLevel_eq_nil (by decide) silent)

theorem comparisonValue?_text (silent : ∀ head ∈ ['=', '!', '>', '<'], head ∉ t.symbols) :
    comparisonValue? eval (comparisons t.text) = none := by
  apply comparisonValue?_eq_none
  intro op
  cases op <;> exact topLevel_eq_nil (by decide) (silent _ (by decide))

end Tree

/-! ## Counts of parentheses -/

/-- A count of parentheses is the same after the text as before it. -/
def KeepsLevel (u : List Char) : Prop :=
  ∀ depth rest, neverCloses depth (u ++ rest) = neverCloses depth rest

namespace KeepsLevel

variable {u v : List Char}

theorem append (first : KeepsLevel u) (second : KeepsLevel v) : KeepsLevel (u ++ v) := by
  intro depth rest
  rw [append_assoc, first, second]

theorem of_noParenthesis (none : ∀ c ∈ u, c ≠ '(' ∧ c ≠ ')') : KeepsLevel u := by
  intro depth rest
  induction u with
  | nil => rfl
  | cons c u ih =>
    rw [forall_mem_cons] at none
    rw [cons_append, ← ih none.2]
    simp [neverCloses, none.1]

theorem parenthesised (inside : KeepsLevel u) : KeepsLevel (Expr.parenthesised u) := by
  intro depth rest
  have text : Expr.parenthesised u ++ rest = '(' :: (u ++ ')' :: rest) := by
    simp [Expr.parenthesised]
  rw [text, neverCloses, inside, neverCloses]

end KeepsLevel

theorem Atom.keepsLevel (a : Atom) : KeepsLevel a.text := by
  have plain (noString : ∀ s, a ≠ .string s) : KeepsLevel a.text := by
    apply KeepsLevel.of_noParenthesis
    intro c member
    have isChar := a.isAtomChar_of_mem noString member
    exact ⟨ne_of_isAtomChar isChar (by decide), ne_of_isAtomChar isChar (by decide)⟩
  cases a with
  | string s =>
    apply KeepsLevel.of_noParenthesis
    intro c member
    simp only [Atom.text, StringText.text, mem_cons, mem_append, not_mem_nil,
      or_false] at member
    obtain isQuote | inside | isQuote := member
    · cases s.isQuote <;> simp [*]
    · exact s.noParenthesis c inside
    · cases s.isQuote <;> simp [*]
  | integer _ | word _ | path _ => exact plain (by simp)

theorem keepsLevel_symbols {symbols : List Char}
    (none : symbols.all (fun c => c ≠ '(' && c ≠ ')') = true) : KeepsLevel symbols := by
  apply KeepsLevel.of_noParenthesis
  intro c member
  simpa using all_eq_true.mp none c member

mutual

theorem Operand.keepsLevel : ∀ o : Operand, KeepsLevel o.text
  | .atom a => a.keepsLevel
  | .group t => .parenthesised t.keepsLevel

theorem Tree.keepsLevel : ∀ t : Tree, KeepsLevel t.text
  | .operand o => o.keepsLevel
  | .sum first second more =>
    first.keepsLevel.append ((keepsLevel_symbols (by decide)).append
      (second.keepsLevel.append (Operand.keepsLevel_summands more)))
  | .compare op left right =>
    left.keepsLevel.append ((keepsLevel_symbols (by cases op <;> decide)).append right.keepsLevel)
  | .choose condition yes no =>
    condition.keepsLevel.append ((keepsLevel_symbols (by decide)).append
      (yes.keepsLevel.append ((keepsLevel_symbols (by decide)).append no.keepsLevel)))
  | .not o => by
    have symbol : KeepsLevel ['!'] := keepsLevel_symbols (by decide)
    exact symbol.append o.keepsLevel

theorem Operand.keepsLevel_summands : ∀ more : List Operand, KeepsLevel (Operand.summandsText more)
  | [] => fun _ _ => rfl
  | o :: rest => (keepsLevel_symbols (by decide)).append
      (o.keepsLevel.append (Operand.keepsLevel_summands rest))

end

/-! ## Ends -/

/-- The characters that operands begin with. -/
def beginsOperand (c : Char) : Bool := isAtomChar c || c = '(' || c = '"' || c = '\''

theorem isBlank_of_isAtomChar {c : Char} (isChar : isAtomChar c = true) :
    Text.isBlank c = false := by
  simp only [isAtomChar, Bool.or_eq_true, decide_eq_true_eq] at isChar
  obtain (isPart | isDot) | isSign := isChar
  · obtain ⟨low, high⟩ := toNat_of_isIdentPart isPart
    exact isBlank_of_ascii low high
  · simp [isDot, Text.isBlank, Text.blankRanges]
  · simp [isSign, Text.isBlank, Text.blankRanges]

namespace IsTight

variable {u v : List Char}

/-- What stands between two texts without blanks at their ends does not matter. -/
theorem around (first : IsTight u) (middle : List Char) (last : IsTight v) :
    IsTight (u ++ (middle ++ v)) where
  first := by
    obtain ⟨c, isFirst, solid⟩ := first.first
    exact ⟨c, by simp [isFirst], solid⟩
  last := by
    obtain ⟨c, isLast, solid⟩ := last.last
    exact ⟨c, by simp [isLast], solid⟩

theorem of_atomChars (filled : u ≠ []) (chars : ∀ c ∈ u, isAtomChar c = true) : IsTight u where
  first := by
    have member := head_mem filled
    exact ⟨u.head filled, List.head?_eq_some_head filled, isBlank_of_isAtomChar (chars _ member)⟩
  last := by
    have member := getLast_mem filled
    have isChar := chars _ member
    exact ⟨u.getLast filled, List.getLast?_eq_some_getLast filled, isBlank_of_isAtomChar isChar,
      ne_of_isAtomChar isChar (by decide)⟩

theorem quoted {quote : Char} (isQuote : quote = '"' ∨ quote = '\'') (inside : List Char) :
    IsTight (quote :: (inside ++ [quote])) where
  first := by
    refine ⟨quote, rfl, ?_⟩
    cases isQuote <;> simp [Text.isBlank, Text.blankRanges, *]
  last := by
    refine ⟨quote, by simp [List.getLast?_cons], ?_⟩
    cases isQuote <;> simp [Text.isBlank, Text.blankRanges, *]

theorem string (s : StringText) : IsTight s.text := quoted s.isQuote _

end IsTight

theorem Atom.text_ne_nil (a : Atom) : a.text ≠ [] := by
  cases a with
  | integer n =>
    simp only [Atom.text, IntegerText.text]
    split
    · simp
    · exact n.filled
  | word w => cases w <;> decide
  | string s => simp [Atom.text, StringText.text]
  | path p =>
    have isName := p.areNames p.first mem_cons_self
    intro empty
    simp only [Atom.text, PathText.text, append_eq_nil_iff] at empty
    simp [empty.1, isIdent] at isName

theorem Atom.isTight (a : Atom) : IsTight a.text := by
  have plain (noString : ∀ s, a ≠ .string s) : IsTight a.text :=
    .of_atomChars a.text_ne_nil fun _ member => a.isAtomChar_of_mem noString member
  cases a with
  | string s => exact .string s
  | integer _ | word _ | path _ => exact plain (by simp)

theorem Operand.isTight (o : Operand) : IsTight o.text := by
  cases o with
  | atom a => exact a.isTight
  | group t => exact isTight_parenthesised t.text

/-- A text that ends with the operands of a sum ends with an operand. -/
theorem Operand.isTight_summands (o : Operand) (more : List Operand) :
    IsTight (o.text ++ Operand.summandsText more) := by
  induction more generalizing o with
  | nil => simpa [Operand.summandsText] using o.isTight
  | cons next rest ih => exact o.isTight.around _ (ih next)

theorem Tree.isTight (t : Tree) : IsTight t.text := by
  cases t with
  | operand o => exact o.isTight
  | sum first second more => exact first.isTight.around _ (second.isTight_summands more)
  | compare op left right => exact left.isTight.around _ right.isTight
  | choose condition yes no => exact condition.isTight.around _ (yes.isTight.around _ no.isTight)
  | not o =>
    obtain ⟨c, isLast, solid⟩ := o.isTight.last
    exact ⟨⟨'!', rfl, by decide⟩, ⟨c, by simp [Tree.text, List.getLast?_cons, isLast], solid⟩⟩

theorem Operand.exists_text_eq_cons (o : Operand) :
    ∃ c rest, o.text = c :: rest ∧ beginsOperand c = true := by
  cases o with
  | group t => exact ⟨'(', t.text ++ [')'], rfl, by decide⟩
  | atom a =>
    obtain ⟨c, rest, text⟩ := exists_cons_of_ne_nil a.text_ne_nil
    refine ⟨c, rest, text, ?_⟩
    have plain (noString : ∀ s, a ≠ .string s) : beginsOperand c = true := by
      have isChar : isAtomChar c = true := a.isAtomChar_of_mem noString (by simp [text])
      simp [beginsOperand, isChar]
    cases a with
    | string s =>
      cases text
      cases s.isQuote <;> simp [beginsOperand, *]
    | integer _ | word _ | path _ => exact plain (by simp)

end ReactiveView.Expr
