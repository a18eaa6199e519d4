import ReactiveView.Proofs.SimultaneousReplacement
import ReactiveView.Proofs.TreeEvaluation
import ReactiveView.Script.Preserve

/-!
# Names of absent fields

A member of `this` has no value where there is no field of its name.  So another name without a field
can stand in its place, and no value changes (`eval?_gap`): evaluation finds the same operators around
the name and cuts the text at the same places.
-/

namespace ReactiveView.Expr

open List

/-! ## Names and their places -/

/-- A character that means nothing to evaluation outside of names. -/
def isPlain (c : Char) : Bool :=
  isInert c && !operatorHeads.contains c && !Text.isBlank c && c ≠ ';' && c ≠ '.'

structure IsWord (w : List Char) : Prop where
  filled : w ≠ []
  plain : ∀ c ∈ w, isPlain c = true

/-- A name that no field has, and that cannot be read as a numeral or a word. -/
structure IsAbsent (scope : Scope) (w : List Char) : Prop extends IsWord w where
  foreign : ∃ c ∈ w, isForeign c = true
  absent : scope.field (String.ofList w) = none

/-- Whether a text, read from a mode on, ends outside of strings, with no array or object begun
    outside of them. -/
def endsInCode (mode : ScanMode) : List Char → Bool
  | [] => mode = .code
  | c :: rest =>
    match mode with
    | .escaped q => endsInCode (.quoted q) rest
    | .quoted q =>
      endsInCode (if c = q then .code else if c = '\\' then .escaped q else .quoted q) rest
    | .code => c ≠ '[' && c ≠ '{' && endsInCode (if isQuote c then .quoted c else .code) rest

def isPathChar (c : Char) : Bool := isIdentPart c || c = '.'

/-- The names and dots at the end of a text. -/
def lastPath (cs : List Char) : List Char := (cs.reverse.takeWhile isPathChar).reverse

/-- A name between two texts is read as a member of `this`, if it is read at all. -/
structure Refers (before after : List Char) : Prop where
  code : endsInCode .code before = true
  dotted : before.getLast? = some '.'
  rooted : lastPath before = ['t', 'h', 'i', 's', '.'] ∨ (lastPath before).head? = some '.'
  ended : after.head?.all (!isIdentPart ·) = true

variable {op a b t u v w : List Char} {c d : Char} {i : Nat}

theorem ne_of_isPlain (plain : isPlain c = true) (other : isPlain d = false) : c ≠ d := by
  rintro rfl
  simp [other] at plain

theorem IsWord.isInert (word : IsWord w) (member : c ∈ w) : isInert c = true := by
  have plain := word.plain c member
  simp only [isPlain, Bool.and_eq_true] at plain
  exact plain.1.1.1.1

theorem IsWord.isBlank (word : IsWord w) (member : c ∈ w) : Text.isBlank c = false := by
  have plain := word.plain c member
  simp only [isPlain, Bool.and_eq_true, Bool.not_eq_true'] at plain
  exact plain.1.1.2

theorem IsWord.head? (word : IsWord w) (t : List Char) : (w ++ t).head?.all isPlain = true := by
  cases w with
  | nil => exact absurd rfl word.filled
  | cons c w => simpa using word.plain c mem_cons_self

theorem IsWord.exists_last (word : IsWord w) : ∃ c ∈ w, ∀ x, (x ++ w).getLast? = some c := by
  rcases eq_nil_or_concat w with rfl | ⟨front, c, rfl⟩
  · exact absurd rfl word.filled
  · exact ⟨c, by simp, fun x => by simp⟩

theorem endsInCode_append (inert : ∀ c ∈ u, isInert c = true) :
    endsInCode .code (u ++ v) = endsInCode .code v := by
  induction u with
  | nil => rfl
  | cons c u ih =>
    rw [forall_mem_cons] at inert
    have first := inert.1
    simp only [isInert, isOpening, Bool.and_eq_true, Bool.not_eq_true', Bool.or_eq_false_iff,
      decide_eq_false_iff_not] at first
    simp [endsInCode, first, ih inert.2]

/-- What stands before a cut does not belong to the path after it. -/
theorem lastPath_append (cut : u.getLast?.any isPathChar = false) :
    lastPath (u ++ v) = lastPath v := by
  have none : u.reverse.takeWhile isPathChar = [] := by
    rcases eq_nil_or_concat u with rfl | ⟨front, c, rfl⟩
    · rfl
    · simp_all
  rw [lastPath, lastPath, reverse_append, takeWhile_append, none]
  split
  next all => rw [append_nil, (List.takeWhile_prefix _).eq_of_length all]
  · rfl

theorem Refers.filled (refers : Refers a b) : a ≠ [] := by
  rintro rfl
  cases refers.dotted

theorem Refers.of_cut (refers : Refers (u ++ v) b) (code : endsInCode .code v = true)
    (cut : u.getLast?.any isPathChar = false) : Refers v b where
  code := code
  dotted := by
    have dotted := refers.dotted
    rw [List.getLast?_append] at dotted
    cases last : v.getLast? with
    | some d => simpa [last] using dotted
    | none => simp_all [isPathChar]
  rooted := lastPath_append cut ▸ refers.rooted
  ended := refers.ended

theorem Refers.shorten (refers : Refers a b) (stands : u <+: b) : Refers a u where
  code := refers.code
  dotted := refers.dotted
  rooted := refers.rooted
  ended := by
    obtain ⟨rest, rfl⟩ := stands
    cases u with
    | nil => rfl
    | cons c u => exact refers.ended

/-! ## Scans -/

def isOperator (op : List Char) : Bool := !op.isEmpty && op.all operatorHeads.contains

theorem isInert_of_operator (isOp : isOperator op = true) (member : c ∈ op) :
    isInert c = true ∧ isPlain c = false ∧ isPathChar c = false := by
  have heads : operatorHeads.all (fun d => isInert d && !isPlain d && !isPathChar d) = true := by
    decide
  simp only [isOperator, Bool.and_eq_true, all_eq_true, contains_iff_mem] at isOp
  simpa [and_assoc] using all_eq_true.mp heads c (isOp.2 c member)

/-- A scan that starts further on finds operators further on. -/
theorem topLevelFrom_add (mode : ScanMode) (depth : Int) (skip k : Nat) (cs : List Char) :
    topLevelFrom op mode depth skip (i + k) cs =
      (topLevelFrom op mode depth skip i cs).map (· + k) := by
  fun_induction topLevelFrom op mode depth skip i cs with
  | case1 => rfl
  | case3 _ _ _ _ _ _ _ ih =>
    simp only [topLevelFrom, Nat.add_right_comm _ k 1]
    exact ih
  | _ => simp_all [topLevelFrom, Nat.add_right_comm _ k 1]

theorem isPrefixOf_append (heads : ∀ c ∈ op, isPlain c = false) (plain : t.head?.all isPlain = true) :
    op.isPrefixOf (a ++ t) = op.isPrefixOf a := by
  induction op generalizing a with
  | nil => simp
  | cons d op ih =>
    rw [forall_mem_cons] at heads
    cases a with
    | cons c a => simp [List.isPrefixOf, ih heads.2]
    | nil =>
      cases t with
      | nil => rfl
      | cons c t =>
        have other := ne_of_isPlain (c := c) (by simpa using plain) heads.1
        simp [List.isPrefixOf, other.symm]

/-- Positions at which an operator cuts a text that begins at position `i`, outside of strings. -/
inductive Cuts (op : List Char) : Nat → List Char → List Nat → Prop
  | none {i : Nat} {a : List Char} : Cuts op i a []
  | cut {i : Nat} {u v : List Char} {ps : List Nat} (code : endsInCode .code v = true)
      (rest : Cuts op (i + u.length + op.length) v ps) :
      Cuts op i (u ++ (op ++ v)) ((i + u.length) :: ps)

theorem Cuts.cons {ps : List Nat} (cuts : Cuts op (i + 1) a ps) (c : Char) :
    Cuts op i (c :: a) ps := by
  cases cuts with
  | none => exact .none
  | @cut _ u v ps code rest =>
    have length : i + 1 + u.length = i + (c :: u).length := by simp; omega
    rw [length] at rest ⊢
    exact .cut (u := c :: u) code rest

theorem Cuts.exists_split {ps : List Nat} {p : Nat} (cuts : Cuts op i a ps) (member : p ∈ ps) :
    ∃ u v, a = u ++ (op ++ v) ∧ p = i + u.length ∧ endsInCode .code v = true := by
  induction cuts with
  | none => cases member
  | @cut i u v ps code rest ih =>
    rcases mem_cons.mp member with rfl | later
    · exact ⟨u, v, rfl, rfl, code⟩
    · obtain ⟨u', v', rfl, rfl, code'⟩ := ih later
      exact ⟨u ++ (op ++ u'), v', by simp, by simp; omega, code'⟩

/-- A text cuts at its operators, and a scan goes on behind it if no operator can begin in it and end
    behind it. -/
def Scanned (op : List Char) (mode : ScanMode) (depth : Int) (i : Nat) (a : List Char) : Prop :=
  Cuts op i a (topLevelFrom op mode depth 0 i a) ∧ ∃ depth', ∀ t, t.head?.all isPlain = true →
    topLevelFrom op mode depth 0 i (a ++ t) =
      topLevelFrom op mode depth 0 i a ++ topLevelFrom op .code depth' 0 (i + a.length) t

theorem Scanned.cons {mode mode' : ScanMode} {depth depth' : Int}
    (next : Scanned op mode' depth' (i + 1) a)
    (step : ∀ t, t.head?.all isPlain = true → topLevelFrom op mode depth 0 i (c :: (a ++ t)) =
      topLevelFrom op mode' depth' 0 (i + 1) (a ++ t)) : Scanned op mode depth i (c :: a) := by
  obtain ⟨cuts, last, behind⟩ := next
  have here := step [] rfl
  rw [append_nil] at here
  refine ⟨here ▸ cuts.cons c, last, fun t plain => ?_⟩
  rw [cons_append, step t plain, here, behind t plain, length_cons, Nat.add_comm a.length,
    Nat.add_assoc]

theorem topLevelFrom_here (isOp : isOperator op = true) (i : Nat) (v : List Char) :
    topLevelFrom op .code 0 0 i (op ++ v) = i :: topLevelFrom op .code 0 0 (i + op.length) v := by
  cases op with
  | nil => cases isOp
  | cons head tail =>
    have inert := (isInert_of_operator isOp mem_cons_self).1
    exact topLevelFrom_operator (u := []) (fun _ _ => rfl) inert i

theorem scanned (isOp : isOperator op = true) : ∀ (a : List Char) (mode : ScanMode) (depth : Int)
    (i : Nat), endsInCode mode a = true → Scanned op mode depth i a
  | [], mode, depth, i, ends => by
    obtain rfl : mode = .code := by simpa [endsInCode] using ends
    exact ⟨.none, depth, fun t _ => rfl⟩
  | c :: a, .escaped q, depth, i, ends => (scanned isOp a _ depth (i + 1) ends).cons fun _ _ => rfl
  | c :: a, .quoted q, depth, i, ends => (scanned isOp a _ depth (i + 1) ends).cons fun _ _ => rfl
  | c :: a, .code, depth, i, ends => by
    simp only [endsInCode, Bool.and_eq_true, decide_eq_true_eq] at ends
    have next := ends.2
    by_cases opening : isOpening c = true
    · have noQuote : isQuote c = false := by
        simp_all [isOpening, isQuote]
      rw [if_neg (by simp [noQuote])] at next
      exact (scanned isOp a _ (depth + 1) (i + 1) next).cons fun _ _ => by simp [topLevelFrom, opening]
    by_cases closing : isClosing c = true
    · have noQuote : isQuote c = false := by
        simp only [isClosing, Bool.or_eq_true, decide_eq_true_eq] at closing
        rcases closing with (rfl | rfl) | rfl <;> rfl
      rw [if_neg (by simp [noQuote])] at next
      exact (scanned isOp a _ (depth - 1) (i + 1) next).cons fun _ _ => by
        simp [topLevelFrom, opening, closing]
    by_cases quote : isQuote c = true
    · rw [if_pos quote] at next
      exact (scanned isOp a _ depth (i + 1) next).cons fun _ _ => by
        simp [topLevelFrom, opening, closing, quote]
    rw [if_neg quote] at next
    have begins (t : List Char) (plain : t.head?.all isPlain = true) :
        op.isPrefixOf (c :: (a ++ t)) = op.isPrefixOf (c :: a) :=
      isPrefixOf_append (a := c :: a) (fun _ member => (isInert_of_operator isOp member).2.1) plain
    by_cases found : depth = 0 ∧ op.isPrefixOf (c :: a) = true
    · obtain ⟨rfl, stands⟩ := found
      obtain ⟨v, same⟩ := isPrefixOf_iff_prefix.mp stands
      have code : endsInCode .code v = true := by
        rw [← endsInCode_append fun _ member => (isInert_of_operator isOp member).1, same]
        simp [endsInCode, ends.1, quote, next]
      have shorter : v.length < (c :: a).length := by
        rw [← same, length_append]
        exact Nat.lt_add_of_pos_left (length_pos_iff.mpr (by simp_all [isOperator]))
      obtain ⟨cuts, last, behind⟩ := scanned isOp v .code 0 (i + op.length) code
      refine ⟨?_, last, fun t plain => ?_⟩
      · rw [← same, topLevelFrom_here isOp]
        exact .cut (u := []) code cuts
      · rw [← same, append_assoc, topLevelFrom_here isOp, topLevelFrom_here isOp,
          behind t plain, length_append, Nat.add_assoc, cons_append]
    · exact (scanned isOp a _ depth (i + 1) next).cons fun t plain => by
        simp only [topLevelFrom, if_neg opening, if_neg closing, if_neg quote, begins t plain,
          if_neg found]
termination_by a => a.length
decreasing_by all_goals first | exact shorter | exact Nat.lt_succ_self _

/-! ## Texts with a gap -/

/-- A text, or a text with a gap for a name. -/
inductive Template where
  | text (cs : List Char)
  | gap (before after : List Char)

def Template.fill (w : List Char) : Template → List Char
  | .text cs => cs
  | .gap before after => before ++ (w ++ after)

/-- The gap is for a member of `this`, and the text around it is shorter than a bound. -/
def Template.Fits (n : Nat) : Template → Prop
  | .text _ => True
  | .gap before after => Refers before after ∧ before.length + after.length < n

theorem take_gap (a w b : List Char) (q : Nat) :
    (a ++ (w ++ b)).take (q + (a.length + w.length)) = a ++ (w ++ b.take q) := by
  rw [← append_assoc, ← append_assoc, Nat.add_comm, ← length_append,
    take_length_add_append]

theorem drop_gap (a w b : List Char) (q m : Nat) :
    (a ++ (w ++ b)).drop (q + (a.length + w.length) + m) = b.drop (q + m) := by
  rw [← append_assoc, Nat.add_right_comm, Nat.add_comm, ← length_append,
    drop_length_add_append]

theorem Refers.behind (isOp : isOperator op = true) (refers : Refers (u ++ (op ++ v)) b)
    (code : endsInCode .code v = true) : Refers v b := by
  rw [← append_assoc] at refers
  refine refers.of_cut code ?_
  rw [List.getLast?_append]
  cases last : op.getLast? with
  | none => simp_all [isOperator]
  | some c => simp [(isInert_of_operator isOp (mem_of_getLast? last)).2.2]

/-- Operators before and after a gap are found whatever fills it. -/
theorem Refers.exists_topLevel (refers : Refers a b) (isOp : isOperator op = true) :
    Cuts op 0 a (topLevel op a) ∧ ∃ qs : List Nat, (∀ q ∈ qs, q < b.length) ∧ ∀ w, IsWord w →
      topLevel op (a ++ (w ++ b)) = topLevel op a ++ qs.map (· + (a.length + w.length)) := by
  obtain ⟨cuts, depth, behind⟩ := scanned isOp a .code 0 0 refers.code
  refine ⟨cuts, topLevelFrom op .code depth 0 0 b, fun q member => ?_, fun w word => ?_⟩
  · simpa using (mem_topLevelFrom member).2.1
  · have skips : Skips op depth w := by
      cases op with
      | nil => cases isOp
      | cons head tail =>
        have other := (isInert_of_operator isOp mem_cons_self).2.1
        exact .of_inert fun c member =>
          ⟨word.isInert member, .inr (ne_of_isPlain (word.plain c member) other)⟩
    rw [topLevel, behind _ (word.head? b), skips, Nat.zero_add, ← topLevelFrom_add, Nat.zero_add]
    rfl

theorem Refers.fits_take (refers : Refers a b) {q : Nat} (inside : q < b.length) :
    (Template.gap a (b.take q)).Fits (a.length + b.length) :=
  ⟨refers.shorten (List.take_prefix q b), by rw [List.length_take]; omega⟩

/-- A cut before a gap leaves the gap in the text behind it. -/
theorem Refers.drop (refers : Refers a b) (isOp : isOperator op = true)
    (cuts : Cuts op 0 a (topLevel op a)) {p : Nat} (member : p ∈ topLevel op a) :
    p + op.length ≤ a.length ∧ Refers (a.drop (p + op.length)) b := by
  obtain ⟨u, v, rfl, rfl, code⟩ := cuts.exists_split member
  have behind : (u ++ (op ++ v)).drop (0 + u.length + op.length) = v := by simp [← drop_drop]
  refine ⟨?_, ?_⟩
  · rw [length_append, length_append]
    omega
  · rw [behind]
    exact refers.behind isOp code

/-- A comparison is cut in the same way whatever fills a gap. -/
theorem comparison?_gap (refers : Refers a b) (op : CompareOp) : ∃ r : Option (Template × Template),
    (∀ t ∈ r, t.1.Fits (a.length + b.length) ∧ t.2.Fits (a.length + b.length)) ∧
    ∀ w, IsWord w →
      comparison? (a ++ (w ++ b)) op = r.map fun t => (op, t.1.fill w, t.2.fill w) := by
  have isOp : isOperator op.symbol = true := by cases op <;> decide
  obtain ⟨cuts, qs, below, found⟩ := refers.exists_topLevel isOp
  let longer (c : Char) : Bool := c = '=' || c = '!' || c = '<' || c = '>'
  have filled : 0 < op.symbol.length := by cases op <;> decide
  cases first : topLevel op.symbol a with
  | cons p ps =>
    obtain ⟨inside, behind⟩ := refers.drop isOp cuts (first ▸ mem_cons_self)
    refine ⟨if (a.take p).getLast?.any longer then none
      else some (.text (a.take p), .gap (a.drop (p + op.symbol.length)) b), ?_, fun w word => ?_⟩
    · intro t isResult
      simp only [Option.mem_def, Option.ite_none_left_eq_some, Option.some.injEq] at isResult
      exact isResult.2 ▸ ⟨trivial, behind, by rw [length_drop]; omega⟩
    · simp only [comparison?, found w word, first, cons_append, List.head?_cons,
        Option.bind_eq_bind, Option.bind_some,
        take_append_of_le_length (Nat.le_of_add_right_le inside), drop_append_of_le_length inside,
        apply_ite (Option.map _)]
      rfl
  | nil =>
    cases qs with
    | nil => exact ⟨none, by simp, fun w word => by simp [comparison?, found w word, first]⟩
    | cons q qs =>
      refine ⟨if (b.take q).getLast?.any longer then none
        else some (.gap a (b.take q), .text (b.drop (q + op.symbol.length))), ?_, fun w word => ?_⟩
      · intro t isResult
        simp only [Option.mem_def, Option.ite_none_left_eq_some, Option.some.injEq] at isResult
        exact isResult.2 ▸ ⟨refers.fits_take (below q mem_cons_self), trivial⟩
      · have last : (a ++ (w ++ b.take q)).getLast?.any longer = (b.take q).getLast?.any longer := by
          obtain ⟨c, member, last⟩ := word.exists_last
          have other (d : Char) : isPlain d = false → c ≠ d := ne_of_isPlain (word.plain c member)
          rw [← append_assoc, List.getLast?_append, last]
          cases (b.take q).getLast? with
          | some _ => rfl
          | none => simp [longer, other '=' (by decide), other '!' (by decide), other '<' (by decide),
              other '>' (by decide)]
        simp only [comparison?, found w word, first, nil_append, map_cons, List.head?_cons,
          Option.bind_eq_bind, Option.bind_some, take_gap, drop_gap]
        rw [apply_ite (Option.map _), ← last]
        rfl

/-- A conditional expression is cut in the same way whatever fills a gap. -/
theorem ternary?_gap (refers : Refers a b) : ∃ r : Option (Template × Template × Template),
    (∀ t ∈ r, t.1.Fits (a.length + b.length) ∧ t.2.1.Fits (a.length + b.length) ∧
      t.2.2.Fits (a.length + b.length)) ∧
    ∀ w, IsWord w →
      ternary? (a ++ (w ++ b)) = r.map fun t => (t.1.fill w, t.2.1.fill w, t.2.2.fill w) := by
  obtain ⟨cuts, qs, below, found⟩ := refers.exists_topLevel (show isOperator ['?'] = true from rfl)
  obtain ⟨cuts', qs', below', found'⟩ := refers.exists_topLevel (show isOperator [':'] = true from rfl)
  cases first : topLevel ['?'] a with
  | cons p ps =>
    obtain ⟨inside, behind⟩ := refers.drop rfl cuts (first ▸ mem_cons_self)
    rw [length_singleton] at inside behind
    cases inner : (topLevel [':'] a).find? (p < ·) with
    | some c =>
      obtain ⟨inside', behind'⟩ := refers.drop rfl cuts' (mem_of_find?_eq_some inner)
      rw [length_singleton] at inside' behind'
      refine ⟨some (.text (a.take p), .text ((a.take c).drop (p + 1)), .gap (a.drop (c + 1)) b), ?_,
        fun w word => ?_⟩
      · rintro t ⟨⟩
        exact ⟨trivial, trivial, behind', by rw [length_drop]; omega⟩
      · simp [ternary?, found w word, found' w word, first, inner, Template.fill,
          take_append_of_le_length (Nat.le_of_succ_le inside),
          take_append_of_le_length (Nat.le_of_succ_le inside'),
          drop_append_of_le_length inside']
    | none =>
      cases qs' with
      | nil => exact ⟨none, by simp, fun w word => by
          simp [ternary?, found w word, found' w word, first, inner]⟩
      | cons c cs =>
        have inside' := below' c mem_cons_self
        refine ⟨some (.text (a.take p), .gap (a.drop (p + 1)) (b.take c), .text (b.drop (c + 1))), ?_,
          fun w word => ?_⟩
        · rintro t ⟨⟩
          refine ⟨trivial, ⟨behind.shorten (List.take_prefix c b), ?_⟩, trivial⟩
          rw [length_drop, List.length_take]
          omega
        · have later : p < c + (a.length + w.length) := by omega
          simp [ternary?, found w word, found' w word, first, inner, Template.fill, later, take_gap,
            drop_gap, take_append_of_le_length (Nat.le_of_succ_le inside),
            drop_append_of_le_length inside]
  | nil =>
    cases qs with
    | nil => exact ⟨none, by simp, fun w word => by simp [ternary?, found w word, first]⟩
    | cons q qs =>
      have early (k : Nat) : (topLevel [':'] a).find? (q + (a.length + k) < ·) = none := by
        rw [List.find?_eq_none]
        intro c member
        have := (refers.drop rfl cuts' member).1
        simp
        omega
      cases inner : qs'.find? (q < ·) with
      | none =>
        refine ⟨none, by simp, fun w word => ?_⟩
        simp [ternary?, found w word, found' w word, first, early, List.find?_map,
          Function.comp_def, inner]
      | some c =>
        refine ⟨some (.gap a (b.take q), .text ((b.take c).drop (q + 1)), .text (b.drop (c + 1))), ?_,
          fun w word => ?_⟩
        · rintro t ⟨⟩
          exact ⟨refers.fits_take (below q mem_cons_self), trivial, trivial⟩
        · simp [ternary?, found w word, found' w word, first, early, List.find?_map, Function.comp_def,
            inner, Template.fill, take_gap, drop_gap]

theorem cutAt_add (k : Nat) (cs : List Char) (ps : List Nat) :
    cutAt (i + k) cs (ps.map (· + k)) = cutAt i cs ps := by
  induction ps generalizing i cs with
  | nil => rfl
  | cons p ps ih =>
    have left : p + k - (i + k) = p - i := by omega
    have right : p + k + 1 - (i + k) = p + 1 - i := by omega
    rw [map_cons, cutAt, cutAt, left, right, Nat.add_right_comm p k 1, ih]

theorem cutAt_behind (q : Nat) (qs : List Nat) :
    cutAt i (a ++ (w ++ b)) ((q :: qs).map (· + (i + (a.length + w.length)))) =
      (a ++ (w ++ b.take q)) :: cutAt (q + 1) (b.drop (q + 1)) qs := by
  have left : q + (i + (a.length + w.length)) - i = q + (a.length + w.length) := by omega
  have right : q + (i + (a.length + w.length)) + 1 - i = q + (a.length + w.length) + 1 := by omega
  rw [map_cons, cutAt, left, right, take_gap, drop_gap, Nat.add_right_comm q _ 1, cutAt_add]

/-- A sum is cut in the same way whatever fills a gap. -/
theorem cutAt_gap {n : Nat} {ps qs : List Nat} (cuts : Cuts ['+'] i a ps) (refers : Refers a b)
    (below : ∀ q ∈ qs, q < b.length) (shorter : a.length + b.length < n ∨
      a.length + b.length ≤ n ∧ (ps ≠ [] ∨ qs ≠ [])) : ∃ t ts,
    (∀ s ∈ t :: ts, Template.Fits n s) ∧ ∀ w,
      cutAt i (a ++ (w ++ b)) (ps ++ qs.map (· + (i + (a.length + w.length)))) =
        t.fill w :: ts.map (Template.fill w) := by
  induction cuts with
  | @none i a =>
    cases qs with
    | nil =>
      exact ⟨.gap a b, [], by simpa [Template.Fits, refers] using shorter, fun w => rfl⟩
    | cons q qs =>
      refine ⟨.gap a (b.take q), (cutAt (q + 1) (b.drop (q + 1)) qs).map .text, ?_, fun w => ?_⟩
      · have fits := refers.fits_take (below q mem_cons_self)
        rw [forall_mem_cons]
        exact ⟨⟨fits.1, Nat.lt_of_lt_of_le fits.2 (by omega)⟩, by simp [Template.Fits]⟩
      · rw [nil_append, cutAt_behind]
        simp [Template.fill, Function.comp_def]
  | @cut i u v ps code _ ih =>
    have length : (u ++ (['+'] ++ v)).length = u.length + 1 + v.length := by simp; omega
    obtain ⟨t, ts, fits, same⟩ := ih (refers.behind rfl code) (.inl (by omega))
    refine ⟨.text u, t :: ts, forall_mem_cons.mpr ⟨trivial, fits⟩, fun w => ?_⟩
    have text : u ++ (['+'] ++ v) ++ (w ++ b) = u ++ '+' :: (v ++ (w ++ b)) := by simp
    have shift : i + (u.length + 1 + v.length + w.length) =
        i + u.length + 1 + (v.length + w.length) := by omega
    have left : i + u.length - i = u.length := by omega
    have right : i + u.length + 1 - i = u.length + 1 := by omega
    rw [text, length, shift, cons_append, cutAt, left, right, take_left, drop_behind]
    exact congrArg (u :: ·) (same w)

theorem summands?_gap (refers : Refers a b) : ∃ r : Option (Template × List Template),
    (∀ t ∈ r, ∀ s ∈ t.1 :: t.2, s.Fits (a.length + b.length)) ∧ ∀ w, IsWord w →
      summands? (a ++ (w ++ b)) = r.map fun t => (t.1.fill w, t.2.map (Template.fill w)) := by
  obtain ⟨cuts, qs, below, found⟩ := refers.exists_topLevel (show isOperator ['+'] = true from rfl)
  by_cases empty : topLevel ['+'] a = [] ∧ qs = []
  · exact ⟨none, by simp, fun w word => by simp [summands?, found w word, empty]⟩
  · obtain ⟨t, ts, fits, same⟩ := cutAt_gap cuts refers below
      (.inr ⟨Nat.le_refl _, Decidable.not_and_iff_or_not.mp empty⟩)
    refine ⟨if (topLevel ['+'] a).head? = some 0 then none else some (t, ts), ?_, fun w word => ?_⟩
    · intro s isResult
      simp only [Option.mem_def, Option.ite_none_left_eq_some, Option.some.injEq] at isResult
      exact isResult.2 ▸ fits
    · have parts := same w
      rw [Nat.zero_add] at parts
      have later := length_pos_iff.mpr word.filled
      simp only [summands?, found w word]
      cases first : topLevel ['+'] a with
      | cons p ps =>
        rw [first] at parts
        simp only [cons_append] at parts ⊢
        rw [parts]
        by_cases front : p = 0 <;> simp [front]
      | nil =>
        cases qs with
        | nil => exact absurd ⟨first, rfl⟩ empty
        | cons q qs =>
          rw [first] at parts
          simp only [nil_append, map_cons] at parts ⊢
          rw [if_neg (by omega), parts]
          rfl

/-! ## Blanks, parentheses and literals around a gap -/

theorem neverCloses_gap (word : IsWord w) (a b : List Char) (depth : Nat) :
    neverCloses depth (a ++ (w ++ b)) = neverCloses depth (a ++ b) := by
  fun_induction neverCloses depth a with
  | case1 =>
    have level : KeepsLevel w := .of_noParenthesis fun c member =>
      have other {d : Char} : isPlain d = false → c ≠ d := ne_of_isPlain (word.plain c member)
      ⟨other (by decide), other (by decide)⟩
    exact level _ b
  | _ => simp_all [neverCloses]

theorem unwrap?_gap (refers : Refers a b) : ∃ r : Option Template,
    (∀ t ∈ r, t.Fits (a.length + b.length)) ∧ ∀ w, IsWord w →
      unwrap? (a ++ (w ++ b)) = r.map (Template.fill w) := by
  obtain ⟨c, a, rfl⟩ := exists_cons_of_ne_nil refers.filled
  by_cases parenthesis : c = '('
  · subst parenthesis
    rcases eq_nil_or_concat b with rfl | ⟨b, d, rfl⟩
    · refine ⟨none, by simp, fun w word => ?_⟩
      obtain ⟨c, member, last⟩ := word.exists_last
      have other := ne_of_isPlain (d := ')') (word.plain c member) (by decide)
      simp [unwrap?, last, other]
    · have inner : Refers a b :=
        (refers.of_cut (u := ['(']) (by simpa [endsInCode, isQuote] using refers.code) rfl).shorten
          (by simp)
      refine ⟨if d = ')' ∧ neverCloses 0 (a ++ b) then some (.gap a b) else none, ?_, fun w word => ?_⟩
      · intro t isResult
        simp only [Option.mem_def, Option.ite_none_right_eq_some, Option.some.injEq] at isResult
        exact isResult.2 ▸ ⟨inner, by simp; omega⟩
      · have text : a ++ (w ++ b.concat d) = a ++ (w ++ b) ++ [d] := by simp
        rw [cons_append, text, unwrap?, List.getLast?_concat, dropLast_concat,
          neverCloses_gap word, apply_ite (Option.map _)]
        simp [Template.fill]
  · exact ⟨none, by simp, fun w _ => by simp [unwrap?, parenthesis]⟩

theorem isInert_of_isBlank (blank : Text.isBlank c = true) :
    isInert c = true ∧ isPathChar c = false := by
  have other (d : Char) (solid : Text.isBlank d = false) : c ≠ d := by
    rintro rfl
    simp [solid] at blank
  have noName : isIdentPart c = false := by
    rw [Bool.eq_false_iff]
    intro isPart
    obtain ⟨low, high⟩ := toNat_of_isIdentPart isPart
    simp [isBlank_of_ascii low high] at blank
  simp [isInert, isOpening, isClosing, isQuote, isPathChar, noName, other '(' (by decide),
    other ')' (by decide), other '[' (by decide), other ']' (by decide), other '{' (by decide),
    other '}' (by decide), other '"' (by decide), other '\'' (by decide), other '`' (by decide),
    other '.' (by decide)]

theorem dropWhile_word {p : Char → Bool} (word : IsWord w) (stops : ∀ c ∈ w, p c = false)
    (x y : List Char) : (x ++ (w ++ y)).dropWhile p = x.dropWhile p ++ (w ++ y) := by
  obtain ⟨c, w, rfl⟩ := exists_cons_of_ne_nil word.filled
  have stop := stops c mem_cons_self
  rw [dropWhile_append]
  split <;> simp_all

theorem dropSemicolonsRev_word (word : IsWord w) (x y : List Char) :
    dropSemicolonsRev (x ++ (w ++ y)) = dropSemicolonsRev x ++ (w ++ y) := by
  fun_induction dropSemicolonsRev x with
  | case1 rest ih =>
    rw [cons_append, dropSemicolonsRev, dropWhile_word word fun _ => word.isBlank]
    exact ih
  | case2 x other =>
    obtain ⟨c, w, rfl⟩ := exists_cons_of_ne_nil word.filled
    have noSemicolon := ne_of_isPlain (d := ';') (word.plain c mem_cons_self) (by decide)
    cases x with
    | nil => simp [dropSemicolonsRev, noSemicolon]
    | cons d x =>
      have noSemicolon : d ≠ ';' := fun same => other x (same ▸ rfl)
      simp [dropSemicolonsRev, noSemicolon]

theorem IsWord.reverse (word : IsWord w) : IsWord w.reverse :=
  ⟨by simpa using word.filled, by simpa using word.plain⟩

/-- What surrounds a gap is normalized whatever fills it. -/
theorem normalize_gap (refers : Refers a b) : ∃ a' b', Refers a' b' ∧
    a'.length + b'.length ≤ a.length + b.length ∧
    ∀ w, IsWord w → normalize (a ++ (w ++ b)) = a' ++ (w ++ b') := by
  have split := takeWhile_append_dropWhile (p := Text.isBlank) (l := a)
  have blank : ∀ c ∈ a.takeWhile Text.isBlank, isInert c = true ∧ isPathChar c = false :=
    fun c member => isInert_of_isBlank (all_eq_true.mp all_takeWhile c member)
  have kept : (dropSemicolonsRev (b.reverse.dropWhile Text.isBlank)).reverse <+: b := by
    simpa using reverse_prefix.mpr
      ((dropSemicolonsRev_isSuffix _).trans (dropWhile_suffix Text.isBlank (l := b.reverse)))
  refine ⟨a.dropWhile Text.isBlank, _, Refers.shorten ?_ kept, ?_, fun w word => ?_⟩
  · rw [← split] at refers
    refine refers.of_cut ?_ ?_
    · rw [← endsInCode_append fun c member => (blank c member).1]
      exact refers.code
    · cases last : (a.takeWhile Text.isBlank).getLast? with
      | none => rfl
      | some c => exact (blank c (mem_of_getLast? last)).2
  · exact Nat.add_le_add (dropWhile_suffix _).length_le kept.length_le
  · have start := dropWhile_word word (fun _ => word.isBlank) a b
    have stop := dropWhile_word word.reverse (fun _ => word.reverse.isBlank) b.reverse
      (a.dropWhile Text.isBlank).reverse
    simp only [normalize, Text.trim, Text.trimStart, Text.trimEnd, start, reverse_append,
      append_assoc, stop, reverse_reverse, dropSemicolonsRev_word word.reverse]

theorem hasBareQuote_of_endsInCode {q : Char} (noEscape : '\\' ≠ q)
    (ends : endsInCode (.quoted q) a = true) (t : List Char) : hasBareQuote q (a ++ t) = true := by
  fun_induction hasBareQuote q a with
  | case1 => cases ends
  | case2 c rest ih =>
    rw [cons_append, cons_append, hasBareQuote]
    exact ih (by simpa [endsInCode, noEscape] using ends)
  | case3 c rest other ih =>
    have plain : c ≠ '\\' := by
      rintro rfl
      cases rest with
      | nil => simp [endsInCode, noEscape] at ends
      | cons d rest => exact other d rest rfl rfl
    have step : hasBareQuote q (c :: (rest ++ t)) = (c == q || hasBareQuote q (rest ++ t)) := by
      simp [hasBareQuote, plain]
    rw [cons_append, step]
    by_cases quote : c = q
    · simp [quote]
    · rw [ih (by simpa [endsInCode, quote, plain] using ends), Bool.or_true]

/-- A string that is closed before a gap does not reach over it. -/
theorem stringLiteral?_gap (refers : Refers a b) (word : IsWord w) :
    stringLiteral? (a ++ (w ++ b)) = none := by
  obtain ⟨c, a, rfl⟩ := exists_cons_of_ne_nil refers.filled
  have code := refers.code
  have filled : w ++ b ≠ [] := by simp [word.filled]
  have bare (q : Char) (isQuote : isQuote q = true) (noEscape : '\\' ≠ q) (same : c = q) :
      hasBareQuote q ((a ++ (w ++ b)).dropLast) = true := by
    rw [dropLast_append_of_ne_nil filled]
    apply hasBareQuote_of_endsInCode noEscape
    simp_all [endsInCode]
  rw [cons_append]
  by_cases double : c = '"'
  · simp [stringLiteral?, between?, double, bare '"' rfl (by decide) double]
  by_cases single : c = '\''
  · simp [stringLiteral?, between?, single, bare '\'' rfl (by decide) single]
  by_cases back : c = '`'
  · simp [stringLiteral?, between?, back, bare '`' rfl (by decide) back]
  simp [stringLiteral?, double, single, back]

theorem segments_word (noDot : ∀ c ∈ w, c ≠ '.') (ended : b = [] ∨ b.head? = some '.') :
    ∃ rest, segments (w ++ b) = w :: rest := by
  suffices ∀ part, ∃ rest, segments.go part (w ++ b) = (part.reverse ++ w) :: rest from this []
  intro part
  induction w generalizing part with
  | nil =>
    cases b with
    | nil => exact ⟨[], by simp [segments.go]⟩
    | cons c b =>
      obtain rfl : c = '.' := by simpa using ended
      exact ⟨segments b, by simp [segments.go, segments]⟩
  | cons c w ih =>
    rw [forall_mem_cons] at noDot
    obtain ⟨rest, same⟩ := ih noDot.2 (c :: part)
    exact ⟨rest, by simp [segments.go, noDot.1, same]⟩

/-- A member of `this` that is absent has no value. -/
theorem path?_gap {scope : Scope} (refers : Refers a b) (absent : IsAbsent scope w) :
    path? scope (a ++ (w ++ b)) = none := by
  cases found : path? scope (a ++ (w ++ b)) with
  | none => rfl
  | some v =>
    have chars : ∀ c ∈ a ++ (w ++ b), isPathChar c = true := by
      intro c member
      by_cases isDot : c = '.'
      · simp [isPathChar, isDot]
      · obtain ⟨s, isPart, inPart⟩ := exists_mem_segments member isDot
        simp [isPathChar, isIdentPart_of_path? found s isPart c inPart]
    have whole : lastPath a = a := by
      rw [lastPath, ← append_nil a.reverse, takeWhile_append_of_pos fun c member =>
        chars c (mem_append_left _ (mem_reverse.mp member))]
      simp
    rcases whole ▸ refers.rooted with this | dot
    · have ended : b = [] ∨ b.head? = some '.' := by
        cases b with
        | nil => exact .inl rfl
        | cons c b =>
          have noName := refers.ended
          have isPath := chars c (by simp)
          simp_all [isPathChar]
      have noDot : ∀ c ∈ w, c ≠ '.' := fun c member =>
        ne_of_isPlain (absent.plain c member) (by decide)
      obtain ⟨rest, split⟩ := segments_word noDot ended
      rw [this] at found
      simp only [segments] at split
      simp [path?, segments, segments.go, split, absent.absent] at found
    · obtain ⟨a, rfl⟩ := List.head?_eq_some_iff.mp dot
      simp [path?, segments, segments.go, isIdent] at found

/-! ## Values -/

theorem Template.Fits.mono {m n : Nat} {t : Template} (fits : t.Fits m) (le : m ≤ n) : t.Fits n := by
  cases t with
  | text => trivial
  | gap => exact ⟨fits.1, Nat.lt_of_lt_of_le fits.2 le⟩

theorem addAll?_gap {w' : List Char} {f : List Char → Option Json} {ts : List Template}
    (same : ∀ t ∈ ts, f (t.fill w) = f (t.fill w')) (acc : Json) :
    addAll? f acc (ts.map (Template.fill w)) = addAll? f acc (ts.map (Template.fill w')) := by
  induction ts generalizing acc with
  | nil => rfl
  | cons t ts ih =>
    rw [forall_mem_cons] at same
    simp [addAll?, same.1, ih same.2]

section Values

variable {scope : Scope} {w' : List Char} {f : List Char → Option Json} (refers : Refers a b)
  (absent : IsAbsent scope w) (absent' : IsAbsent scope w')
  (same : ∀ t : Template, t.Fits (a.length + b.length) → f (t.fill w) = f (t.fill w'))
include refers absent absent' same

theorem ternaryValue?_gap :
    ternaryValue? f (a ++ (w ++ b)) = ternaryValue? f (a ++ (w' ++ b)) := by
  obtain ⟨r, fits, cut⟩ := ternary?_gap refers
  rw [ternaryValue?, ternaryValue?, cut w absent.toIsWord, cut w' absent'.toIsWord]
  cases r with
  | none => rfl
  | some t =>
    obtain ⟨condition, yes, no⟩ := fits t rfl
    simp [same _ condition, same _ yes, same _ no]

theorem comparisonValue?_gap (ops : List CompareOp) :
    comparisonValue? f (ops.filterMap (comparison? (a ++ (w ++ b)))) =
      comparisonValue? f (ops.filterMap (comparison? (a ++ (w' ++ b)))) := by
  induction ops with
  | nil => rfl
  | cons op ops ih =>
    obtain ⟨r, fits, cut⟩ := comparison?_gap refers op
    rw [filterMap_cons, filterMap_cons, cut w absent.toIsWord, cut w' absent'.toIsWord]
    cases r with
    | none => exact ih
    | some t =>
      obtain ⟨left, right⟩ := fits t rfl
      have front : (t.2.fill w).head? = some '=' ↔ (t.2.fill w').head? = some '=' := by
        cases second : t.2 with
        | text => rfl
        | gap x y =>
          rw [second] at right
          obtain ⟨c, x, rfl⟩ := exists_cons_of_ne_nil right.1.filled
          rfl
      simp [comparisonValue?, same _ left, same _ right, front, ih]

theorem sumValue?_gap : sumValue? f (a ++ (w ++ b)) = sumValue? f (a ++ (w' ++ b)) := by
  obtain ⟨r, fits, cut⟩ := summands?_gap refers
  rw [sumValue?, sumValue?, cut w absent.toIsWord, cut w' absent'.toIsWord]
  cases r with
  | none => rfl
  | some t =>
    have each := fits t rfl
    rw [forall_mem_cons] at each
    simp [same _ each.1, addAll?_gap fun t member => same t (each.2 t member)]

theorem leafValue?_gap :
    leafValue? scope f (a ++ (w ++ b)) = leafValue? scope f (a ++ (w' ++ b)) := by
  have path := path?_gap refers absent
  have path' := path?_gap refers absent'
  have code := refers.code
  obtain ⟨c, a, rfl⟩ := exists_cons_of_ne_nil refers.filled
  by_cases negation : c = '!'
  · subst negation
    have inner : Refers a b :=
      refers.of_cut (u := ['!']) (by simpa [endsInCode, isQuote] using code) rfl
    have operand := same (.gap a b) ⟨inner, by simp⟩
    obtain ⟨d, a, rfl⟩ := exists_cons_of_ne_nil inner.filled
    simp only [Template.fill, cons_append] at operand path path' ⊢
    simp [leafValue?, operand, path, path']
  · have noLiteral : c ≠ '[' ∧ c ≠ '{' := by simp_all [endsInCode]
    rw [cons_append] at path path' ⊢
    simp [leafValue?, negation, noLiteral, path, path']

end Values

/-- A name of no field can be written in place of another, and no value changes. -/
theorem eval?_gap {scope : Scope} {w' : List Char} (absent : IsAbsent scope w)
    (absent' : IsAbsent scope w') {n : Nat} {t : Template} (fits : t.Fits n) :
    eval? scope (t.fill w) = eval? scope (t.fill w') := by
  induction n generalizing t with
  | zero =>
    cases t with
    | text => rfl
    | gap a b => exact absurd fits.2 (Nat.not_lt_zero _)
  | succ n ih =>
    cases t with
    | text => rfl
    | gap a b =>
      obtain ⟨a', b', refers, shorter, normal⟩ := normalize_gap fits.1
      have same : ∀ t : Template, t.Fits (a'.length + b'.length) →
          eval? scope (t.fill w) = eval? scope (t.fill w') := fun t inner =>
        ih (inner.mono (Nat.le_trans shorter (Nat.le_of_lt_succ fits.2)))
      have literal {w : List Char} (absent : IsAbsent scope w) :
          stringLiteral? (a' ++ (w ++ b')) = none ∧ Text.readNumeral (a' ++ (w ++ b')) = .other ∧
            word? (a' ++ (w ++ b')) = none := by
        obtain ⟨c, member, foreign⟩ := absent.foreign
        have inText : c ∈ a' ++ (w ++ b') := by simp [member]
        exact ⟨stringLiteral?_gap refers absent.toIsWord, readNumeral_of_isForeign inText foreign,
          word?_of_isForeign inText foreign⟩
      have filled (w : List Char) : (a' ++ (w ++ b')).isEmpty = false := by
        simp [refers.filled]
      obtain ⟨r, inner, cut⟩ := unwrap?_gap refers
      rw [eval?_eq, eval?_eq scope (Template.fill w' _)]
      simp only [Template.fill, evalStep, normal w absent.toIsWord, normal w' absent'.toIsWord, filled,
        cut w absent.toIsWord, cut w' absent'.toIsWord, literal absent, literal absent', comparisons]
      cases r with
      | some t => exact same t (inner t rfl)
      | none =>
        simp only [Option.map_none, ternaryValue?_gap refers absent absent' same,
          comparisonValue?_gap refers absent absent' same, sumValue?_gap refers absent absent' same,
          leafValue?_gap refers absent absent' same]

end ReactiveView.Expr

namespace ReactiveView.Script

/-! ## Replaced names -/

open List
open ReactiveView.Expr (Refers IsAbsent isPlain)

/-- A replacement writes a name of no field in place of another one. -/
def Replacement.Exchanges (scope : Expr.Scope) (text : List Char) (r : Replacement) : Prop :=
  ∃ before name after, text = before ++ (name ++ after) ∧ r.start = before.length ∧
    r.stop = before.length + name.length ∧ Refers before after ∧ IsAbsent scope name ∧
    IsAbsent scope r.text

theorem Replacement.apply_gap {r : Replacement} {before name after : List Char}
    (start : r.start = before.length) (stop : r.stop = before.length + name.length) :
    r.apply (before ++ (name ++ after)) = before ++ (r.text ++ after) := by
  have cut : (before ++ (name ++ after)).drop (before.length + name.length) = after := by
    rw [← length_append, ← append_assoc, drop_left]
  rw [apply, if_pos (by simp only [start, stop, length_append]; omega), start, stop, take_left, cut,
    append_assoc]

namespace Replacement.Exchanges

variable {scope : Expr.Scope} {text : List Char} {r s : Replacement} {rs : List Replacement}

theorem eval?_apply (exchanges : r.Exchanges scope text) :
    Expr.eval? scope (r.apply text) = Expr.eval? scope text := by
  obtain ⟨before, name, after, rfl, start, stop, refers, absent, absent'⟩ := exchanges
  rw [apply_gap start stop]
  exact Expr.eval?_gap absent' absent (t := .gap before after) ⟨refers, Nat.lt_succ_self _⟩

/-- Of two names the first one stands before the dot of the other, so it stays where it is. -/
theorem after_apply (first : s.Exchanges scope text) (last : r.Exchanges scope text)
    (order : s.start < r.start) : s.Exchanges scope (r.apply text) := by
  obtain ⟨before, name, after, same, start, stop, refers, absent⟩ := first
  obtain ⟨before', name', after', rfl, start', stop', refers', _⟩ := last
  have noDot : '.' ∉ name := fun member => Expr.ne_of_isPlain (absent.1.plain _ member) (by decide) rfl
  rw [apply_gap start' stop']
  rcases append_eq_append_iff.mp same with ⟨rest, rfl, _⟩ | ⟨between, rfl, tail⟩
  · rw [start, start', length_append] at order
    omega
  · have filled : between ≠ [] := by
      rintro rfl
      simp [start, start'] at order
    have dot : between.getLast? = some '.' := by
      simpa [getLast?_append, getLast?_eq_some_getLast filled] using refers'.dotted
    rcases append_eq_append_iff.mp tail with ⟨rest, rfl, rfl⟩ | ⟨rest, rfl, _⟩
    · refine ⟨before, name, rest ++ (r.text ++ after'), by simp, start, stop, ?_, absent⟩
      cases rest with
      | nil => exact absurd (mem_of_getLast? dot) (by simpa using noDot)
      | cons c rest => exact ⟨refers.code, refers.dotted, refers.rooted, refers.ended⟩
    · exact absurd (mem_append_left _ (mem_of_getLast? dot)) noDot

theorem eval?_foldl (each : ∀ r ∈ rs, r.Exchanges scope text)
    (sorted : rs.Pairwise fun a b => b.start < a.start) :
    Expr.eval? scope (rs.foldl (fun text r => r.apply text) text) = Expr.eval? scope text := by
  induction rs generalizing text with
  | nil => rfl
  | cons r rs ih =>
    obtain ⟨here, each⟩ := forall_mem_cons.mp each
    obtain ⟨order, sorted⟩ := pairwise_cons.mp sorted
    have later : ∀ s ∈ rs, s.Exchanges scope (r.apply text) :=
      fun s member => (each s member).after_apply here (order s member)
    rw [foldl_cons, ih later sorted, here.eval?_apply]

theorem eval?_splice (each : ∀ r ∈ rs, r.Exchanges scope text) (once : (rs.map (·.start)).Nodup) :
    Expr.eval? scope (splice 0 rs text) = Expr.eval? scope text := by
  have made : (schedule 0 rs).Perm rs := by
    have all : shift? 0 = some := funext fun r => by simp [shift?]
    have perm := (mergeSort_perm rs fun a b => b.start ≤ a.start).filterMap (shift? 0)
    rwa [← schedule, all, filterMap_some] at perm
  refine eval?_foldl (fun r member => each r (made.subset member)) ?_
  have distinct := (made.map (·.start)).nodup_iff.mpr once
  rw [List.Nodup, pairwise_map] at distinct
  exact ((pairwise_schedule 0 rs).and distinct).imp fun order =>
    Nat.lt_of_le_of_ne order.1 order.2.symm

end Replacement.Exchanges

/-- A member of `this` stands in a text at its positions. -/
def ThisMember.StandsIn (text : List Char) (m : ThisMember) : Prop :=
  ∃ before after, text = before ++ (m.name.toList ++ after) ∧ m.start = before.length ∧
    m.stop = before.length + m.name.toList.length ∧ Refers before after ∧
    ∀ c ∈ m.name.toList, isPlain c = true

theorem ThisMember.StandsIn.exchanges {names : Names} {scope : Expr.Scope} {text : List Char}
    {m : ThisMember} {r : Replacement} (stands : m.StandsIn text)
    (refers : names.replacement? m = some r) (absent : scope.field m.name = none)
    (absent' : scope.field (String.ofList r.text) = none) : r.Exchanges scope text := by
  obtain ⟨before, after, split, start, stop, place, plain⟩ := stands
  unfold Names.replacement? at refers
  split at refers
  next field name =>
    obtain ⟨-, same⟩ := Option.ite_none_right_eq_some.mp refers
    have text : r.text = field ++ ['_', '_'] := by simp [← Option.some.inj same, backingName]
    rw [name, forall_mem_cons] at plain
    rw [← String.ofList_toList (s := m.name), name] at absent
    refine ⟨before, '$' :: field, after, name ▸ split, ?_, ?_, place,
      ⟨⟨cons_ne_nil _ _, forall_mem_cons.mpr plain⟩, ⟨'$', mem_cons_self, by decide⟩, absent⟩,
      ⟨⟨?_, ?_⟩, ⟨'_', by simp [text], by decide⟩, absent'⟩⟩
    · rw [← Option.some.inj same, start]
    · rw [← Option.some.inj same, stop, name]
    · simp [text]
    · rw [text, forall_mem_append]
      exact ⟨plain.2, all_eq_true.mp (by decide)⟩
  · cases refers

end ReactiveView.Script
