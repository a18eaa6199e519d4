import ReactiveView.Proofs.EvaluatedParts

/-!
# Texts that are more than an atom

A numeral, a word or a path has no blanks, brackets, quotes or operators in it.  So a text with such a
character, unless it is a string or a text in parentheses, is evaluated as an operator expression
(`eval?_operator`).
-/

namespace ReactiveView.Expr

open List

/-! ## Classes of characters by their numbers -/

theorem isDigit_iff {c : Char} : c.isDigit = true ↔ 48 ≤ c.toNat ∧ c.toNat ≤ 57 :=
  Char.isDigit_iff_toNat

theorem isUpper_iff {c : Char} : c.isUpper = true ↔ 65 ≤ c.toNat ∧ c.toNat ≤ 90 := by
  change decide (c.val ≥ 'A'.val ∧ c.val ≤ 'Z'.val) = true ↔ _
  rw [decide_eq_true_iff]
  exact Iff.rfl

theorem isLower_iff {c : Char} : c.isLower = true ↔ 97 ≤ c.toNat ∧ c.toNat ≤ 122 := by
  change (decide (c.val ≥ 'a'.val) && decide (c.val ≤ 'z'.val)) = true ↔ _
  rw [Bool.and_eq_true, decide_eq_true_iff, decide_eq_true_iff]
  exact Iff.rfl

theorem isIdentStart_iff {c : Char} : isIdentStart c = true ↔
    ((65 ≤ c.toNat ∧ c.toNat ≤ 90) ∨ (97 ≤ c.toNat ∧ c.toNat ≤ 122)) ∨ c.toNat = 95 ∨
      c.toNat = 36 := by
  change ((c.isUpper || c.isLower) || c = '_' || c = '$') = true ↔ _
  simp only [Bool.or_eq_true, decide_eq_true_eq, isUpper_iff, isLower_iff, ← Char.toNat_inj, or_assoc]
  exact Iff.rfl

theorem toLower_eq_self {c : Char} (noUpper : ¬(65 ≤ c.toNat ∧ c.toNat ≤ 90)) : c.toLower = c :=
  dif_neg noUpper

/-- A character that occurs in no numeral or word. -/
def isForeign (c : Char) : Bool :=
  !c.isUpper && !c.isLower && !c.isDigit && c ≠ '.' && c ≠ '+' && c ≠ '-'

variable {cs : List Char} {c : Char}

/-- A foreign character is not the first one if that is plain. -/
theorem mem_tail_of_isForeign {d : Char} (member : c ∈ d :: cs) (foreign : isForeign c = true)
    (plain : isForeign d = false) : c ∈ cs := by
  cases mem_cons.mp member with
  | inl same => simp [same, plain] at foreign
  | inr later => exact later

/-! ## Numerals -/

theorem isDigit_of_isForeign (foreign : isForeign c = true) : c.isDigit = false := by
  simp_all [isForeign]

theorem toLower_of_isForeign (foreign : isForeign c = true) : c.toLower = c := by
  have noUpper : c.isUpper = false := by simp_all [isForeign]
  exact toLower_eq_self fun isUpper => Bool.eq_false_iff.mp noUpper (isUpper_iff.mpr isUpper)

theorem mem_dropWhile_of_neg {α : Type} {p : α → Bool} {xs : List α} {x : α} (member : x ∈ xs)
    (neg : p x = false) : x ∈ xs.dropWhile p := by
  rw [← @List.takeWhile_append_dropWhile _ p xs, mem_append] at member
  cases member with
  | inl taken =>
    have pos : p x = true := all_eq_true.mp all_takeWhile x taken
    simp [neg] at pos
  | inr dropped => exact dropped

section

variable (member : c ∈ cs) (foreign : isForeign c = true)
include member foreign

theorem mem_spanSign_of_isForeign : c ∈ (Text.spanSign cs).2 := by
  fun_cases Text.spanSign cs with
  | case1 rest => exact mem_tail_of_isForeign member foreign (by decide)
  | case2 rest => exact mem_tail_of_isForeign member foreign (by decide)
  | case3 => exact member

theorem exponent?_of_isForeign : Text.exponent? cs = none := by
  cases cs with
  | nil => cases member
  | cons d rest =>
    by_cases isE : (d == 'e' || d == 'E') = true
    · have plain : isForeign d = false := by
        simp only [Bool.or_eq_true, beq_iff_eq] at isE
        rcases isE with rfl | rfl <;> decide
      have later := mem_tail_of_isForeign member foreign plain
      have left := mem_dropWhile_of_neg (mem_spanSign_of_isForeign later foreign)
        (isDigit_of_isForeign foreign)
      have filled : (Text.spanDigits (Text.spanSign rest).2).2 ≠ [] := ne_nil_of_mem left
      simp [Text.exponent?, isE, filled]
    · simp [Text.exponent?, isE]

theorem ne_toList_of_isForeign {word : String}
    (plain : word.toList.all (fun d => !isForeign d) = true) : cs ≠ word.toList := by
  rintro rfl
  have noForeign := all_eq_true.mp plain c member
  simp [foreign] at noForeign

theorem readNumeral_of_isForeign : Text.readNumeral cs = .other := by
  have inBody := mem_spanSign_of_isForeign member foreign
  have noDigit := isDigit_of_isForeign foreign
  -- The character is not among the digits on either side of a point, so it stands where an exponent
  -- would have to be.
  have noExponent {body whole rest after : List Char} {e : Int} (inBody : c ∈ body)
      (isWhole : Text.spanDigits body = (whole, rest))
      (after_eq : after = rest ∨ ∃ fraction, rest = '.' :: fraction ∧
        after = fraction.dropWhile Char.isDigit) : Text.exponent? after ≠ some e := by
    simp only [Text.spanDigits, Prod.mk.injEq] at isWhole
    have inRest : c ∈ rest := isWhole.2 ▸ mem_dropWhile_of_neg inBody noDigit
    have inAfter : c ∈ after := by
      cases after_eq with
      | inl same => exact same ▸ inRest
      | inr point =>
        obtain ⟨fraction, rfl, rfl⟩ := point
        exact mem_dropWhile_of_neg (mem_tail_of_isForeign inRest foreign (by decide)) noDigit
    simp [exponent?_of_isForeign inAfter foreign]
  fun_cases Text.readNumeral cs with
  | case1 neg body isSign isWord =>
    rw [isSign] at inBody
    have inLower : c ∈ body.map Char.toLower :=
      mem_map.mpr ⟨c, inBody, toLower_of_isForeign foreign⟩
    have letters : Text.nonfiniteWords.all (fun w => w.toList.all fun d => !isForeign d) = true := by
      decide
    have plain := all_eq_true.mp letters _ (contains_iff_mem.mp isWord)
    exact absurd String.toList_ofList.symm (ne_toList_of_isForeign inLower foreign plain)
  | case2 => rfl
  | case3 => rfl
  | case4 neg body isSign _ whole rest isWhole part after isPart _ e isExponent _ =>
    rw [isSign] at inBody
    apply absurd isExponent
    apply noExponent inBody isWhole
    split at isPart <;> simp_all [Text.spanDigits]
  | case5 neg body isSign _ whole rest isWhole part after isPart _ e isExponent _ _ =>
    rw [isSign] at inBody
    apply absurd isExponent
    apply noExponent inBody isWhole
    split at isPart <;> simp_all [Text.spanDigits]

/-! ## Words and paths -/

theorem word?_of_isForeign : word? cs = none := by
  have noWord (word : String) (plain : word.toList.all (fun d => !isForeign d) = true) :
      cs ≠ word.toList := ne_toList_of_isForeign member foreign plain
  rw [word?, if_neg (noWord "true" (by decide)), if_neg (noWord "false" (by decide)), if_neg]
  exact not_or.mpr ⟨noWord "null" (by decide), noWord "undefined" (by decide)⟩

end

theorem exists_mem_go_segments {part : List Char} (member : c ∈ part ∨ c ∈ cs) (noDot : c ≠ '.') :
    ∃ s ∈ segments.go part cs, c ∈ s := by
  fun_induction segments.go part cs with
  | case1 part => simpa using member
  | case2 part rest ih =>
    simp only [mem_cons, noDot, false_or] at member
    cases member with
    | inl here => exact ⟨part.reverse, by simp, by simpa using here⟩
    | inr later =>
      obtain ⟨s, isPart, inPart⟩ := ih (.inr later)
      exact ⟨s, by simp [isPart], inPart⟩
  | case3 part d rest _ ih =>
    apply ih
    simpa [or_assoc, or_left_comm] using member

/-- Every character but the dots stands in a part. -/
theorem exists_mem_segments (member : c ∈ cs) (noDot : c ≠ '.') : ∃ s ∈ segments cs, c ∈ s :=
  exists_mem_go_segments (.inr member) noDot

theorem isIdent_of_walkPath? {v w : Json} {path : List (List Char)}
    (found : walkPath? v path = some w) : ∀ s ∈ path, isIdent s = true := by
  induction path generalizing v with
  | nil => simp
  | cons s rest ih =>
    simp only [walkPath?, Option.ite_none_right_eq_some, Option.bind_eq_some_iff] at found
    obtain ⟨isName, part, -, walked⟩ := found
    simpa [isName] using ih walked

theorem isIdentPart_of_isIdent {s : List Char} (isName : isIdent s = true) (member : c ∈ s) :
    isIdentPart c = true := by
  cases s with
  | nil => cases member
  | cons d rest =>
    simp only [isIdent, Bool.and_eq_true, all_eq_true] at isName
    cases mem_cons.mp member with
    | inl same => simp [same, isIdentPart, isName.1]
    | inr later => exact isName.2 c later

/-- A path that has a value consists of names, the first of which may be `this`. -/
theorem isIdentPart_of_path? {scope : Scope} {v : Json} (found : path? scope cs = some v) :
    ∀ s ∈ segments cs, ∀ c ∈ s, isIdentPart c = true := by
  simp only [path?] at found
  cases isSplit : segments cs with
  | nil => simp
  | cons first rest =>
    have root {look : String → Option Json} {name : List Char} {rest : List (List Char)}
        (found : (if isIdent name = true then
          (look (String.ofList name)).bind fun v => walkPath? v rest else none) = some v) :
        ∀ s ∈ name :: rest, ∀ c ∈ s, isIdentPart c = true := by
      simp only [Option.ite_none_right_eq_some, Option.bind_eq_some_iff] at found
      obtain ⟨isName, w, -, walked⟩ := found
      simp only [forall_mem_cons]
      exact ⟨fun c => isIdentPart_of_isIdent isName, fun s member c =>
        isIdentPart_of_isIdent (isIdent_of_walkPath? walked s member)⟩
    simp only [isSplit] at found
    by_cases isThis : first = "this".toList
    · rw [if_pos isThis] at found
      cases rest with
      | nil => cases found
      | cons field rest =>
        have this : "this".toList.all isIdentPart = true := by decide
        rw [forall_mem_cons]
        exact ⟨isThis ▸ all_eq_true.mp this, root found⟩
    · rw [if_neg isThis] at found
      exact root found

/-- A text with a character that is neither a dot nor part of a name is no path. -/
theorem path?_eq_none (scope : Scope) (member : c ∈ cs) (noDot : c ≠ '.')
    (noName : isIdentPart c = false) : path? scope cs = none := by
  obtain ⟨s, isPart, inPart⟩ := exists_mem_segments member noDot
  cases found : path? scope cs with
  | none => rfl
  | some v =>
    have isName := isIdentPart_of_path? found s isPart c inPart
    simp [noName] at isName

/-- A text with a foreign character that is neither a string nor in parentheses is evaluated as an
    operator expression. -/
theorem eval?_operator {scope : Scope} (tight : IsTight cs) (noString : stringLiteral? cs = none)
    (noGroup : unwrap? cs = none) (member : c ∈ cs) (foreign : isForeign c = true) :
    eval? scope cs = (ternaryValue? (eval? scope) cs).or
      ((comparisonValue? (eval? scope) (comparisons cs)).or
        ((sumValue? (eval? scope) cs).or (leafValue? scope (eval? scope) cs))) := by
  rw [eval?_of_noLiteral scope tight noGroup noString (readNumeral_of_isForeign member foreign),
    word?_of_isForeign member foreign, Option.none_or]

end ReactiveView.Expr
