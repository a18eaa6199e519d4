import Mathlib.Data.List.Induction
import Mathlib.Data.Set.Card
import ReactiveView.Lowering.Memo
import ReactiveView.Proofs.ChildKeys
import ReactiveView.Proofs.DeclarationCodec
import ReactiveView.Proofs.JsonTexts

/-!
# Remembered outputs are the outputs

Unless two texts have the same digest, a memo cannot be told from lowering each time
(`Memo.isTransparent`).  The digested bytes say which module and options they are made of: a text
says which value it was written from, and a zero byte stands in none of them.
-/

namespace ReactiveView

open List

/-! ## Bytes of texts -/

theorem toList_loop (bytes : ByteArray) (i : Nat) (done : List UInt8) :
    ByteArray.toList.loop bytes i done = done.reverse ++ bytes.data.toList.drop i := by
  fun_induction ByteArray.toList.loop bytes i done with
  | case1 i done inside ih =>
    have listed : i < bytes.data.toList.length := inside
    rw [ih, drop_eq_getElem_cons listed, reverse_cons, append_assoc]
    simp [ByteArray.get!, inside]
  | case2 i done outside =>
    rw [drop_eq_nil_of_le (Nat.le_of_not_lt outside), append_nil]

theorem toList_toByteArray (bytes : List UInt8) : bytes.toByteArray.toList = bytes := by
  rw [ByteArray.toList, toList_loop, toList_data_toByteArray]
  rfl

namespace Json

theorem bytes_eq_flatMap (v : Json) : v.bytes = v.chars.flatMap String.utf8EncodeChar := by
  rw [bytes, String.toUTF8_eq_toByteArray, compact, String.toByteArray_ofList, List.utf8Encode,
    toList_toByteArray]

theorem bytes_inj {v w : Json} (tidy : v.IsTidy) (tidy' : w.IsTidy) (same : v.bytes = w.bytes) :
    v = w := by
  apply compact_inj tidy tidy'
  rw [bytes_eq_flatMap, bytes_eq_flatMap, ← toByteArray_inj] at same
  rw [compact, compact, ← String.toByteArray_inj, String.toByteArray_ofList,
    String.toByteArray_ofList]
  exact same

theorem zero_notMem_utf8EncodeChar {c : Char} (visible : 32 ≤ c.toNat) :
    0 ∉ String.utf8EncodeChar c := by
  have nonzero : ∀ n, 0 < n → n < 256 → (0 : UInt8) ≠ UInt8.ofNat n := by
    intro n pos small same
    have value := congrArg UInt8.toNat same
    rw [UInt8.toNat_ofNat_of_lt' small] at value
    exact absurd value pos.ne
  have visible : 32 ≤ c.val.toNat := visible
  intro member
  unfold String.utf8EncodeChar at member
  dsimp only at member
  split_ifs at member <;> simp only [mem_cons, not_mem_nil, or_false] at member
  · exact nonzero _ (by omega) (by omega) member
  · rcases member with same | same <;> exact nonzero _ (by omega) (by omega) same
  · rcases member with same | same | same <;> exact nonzero _ (by omega) (by omega) same
  · rcases member with same | same | same | same <;> exact nonzero _ (by omega) (by omega) same

theorem zero_notMem_bytes {v : Json} (tidy : v.IsTidy) : 0 ∉ v.bytes := by
  rw [bytes_eq_flatMap, mem_flatMap]
  rintro ⟨c, member, encoded⟩
  exact zero_notMem_utf8EncodeChar (chars_printable v tidy c member) encoded

end Json

/-! ## Keys -/

/-- The bytes whose digest is the key of a module with options. -/
def Module.keyBytes (m : Module) (options : Options) : List UInt8 :=
  m.encode.bytes ++ 0 :: options.encode.bytes

theorem Module.keyBytes_inj {m m' : Module} {o o' : Options}
    (same : m.keyBytes o = m'.keyBytes o') : m = m' ∧ o = o' := by
  obtain ⟨modules, options⟩ := append_cons_inj_of_first (Json.zero_notMem_bytes m.survives.tidy)
    (Json.zero_notMem_bytes m'.survives.tidy) same
  have encodings := Json.bytes_inj m.survives.tidy m'.survives.tidy modules
  have encodings' := Json.bytes_inj o.survives.tidy o'.survives.tidy options
  have decoded := (Json.lossless Module.survives).asWritten m
  have decoded' := (Json.lossless Options.survives).asWritten o
  rw [encodings, (Json.lossless Module.survives).asWritten m'] at decoded
  rw [encodings', (Json.lossless Options.survives).asWritten o'] at decoded'
  exact ⟨(Option.some.inj decoded).symm, (Option.some.inj decoded').symm⟩

namespace Sha256

theorem hexByte_inj {x y : UInt8} (same : hexByte x = hexByte y) : x = y := by
  have digits : ∀ a < 16, ∀ b < 16, Nat.digitChar a = Nat.digitChar b → a = b := by decide
  have small := x.toNat_lt
  have small' := y.toNat_lt
  obtain ⟨high, low⟩ := List.cons.inj same
  have high := digits _ (by omega) _ (by omega) high
  have low := digits _ (by omega) _ (by omega) (List.cons.inj low).1
  apply UInt8.toNat_inj.mp
  omega

theorem flatMap_hexByte_inj {xs ys : List UInt8} (same : xs.flatMap hexByte = ys.flatMap hexByte) :
    xs = ys := by
  induction xs generalizing ys with
  | nil =>
    cases ys with
    | nil => rfl
    | cons y ys => simp [hexByte] at same
  | cons x xs ih =>
    cases ys with
    | nil => simp [hexByte] at same
    | cons y ys =>
      rw [flatMap_cons, flatMap_cons] at same
      obtain ⟨first, rest⟩ := append_inj same rfl
      rw [hexByte_inj first, ih rest]

theorem digest_eq_of_hexDigest_eq {a b : List UInt8} (same : hexDigest a = hexDigest b) :
    digest a = digest b :=
  flatMap_hexByte_inj (String.ofList_injective same)

end Sha256

/-- The key of a module with options is the digest of their bytes, so it says which they are. -/
theorem Module.eq_of_key_eq {m m' : Module} {o o' : Options}
    (own : Sha256.digest (m.keyBytes o) = Sha256.digest (m'.keyBytes o') →
      m.keyBytes o = m'.keyBytes o') (same : m.key o = m'.key o') : m = m' ∧ o = o' :=
  Module.keyBytes_inj (own (Sha256.digest_eq_of_hexDigest_eq same))

/-! ## Runs -/

namespace Memo

/-- What a memo is asked to do. -/
inductive Request where
  | get (m : Module) (options : Options)
  | lower (m : Module) (options : Options)
  | clear

namespace Request

/-- The module and the options of a request. -/
def pair? : Request → Option (Module × Options)
  | .get m options => some (m, options)
  | .lower m options => some (m, options)
  | .clear => none

end Request

/-- The memo after a request. -/
def step (parser : Script.Parser) (memo : Memo) : Request → Memo
  | .get _ _ => memo
  | .lower m options => (memo.getOrLower m options parser).2
  | .clear => {}

/-- The memo after a sequence of requests, from an empty one on. -/
def after (parser : Script.Parser) (requests : List Request) : Memo :=
  requests.foldl (step parser) {}

/-- A module was lowered with options, and the memo was not cleared since. -/
def IsKept (requests : List Request) (p : Module × Options) : Prop :=
  ∃ before later, requests = before ++ .lower p.1 p.2 :: later ∧ .clear ∉ later

/-- Among the bytes that are digested in a sequence of requests, no two have the same digest. -/
def HaveOwnDigests (requests : List Request) : Prop :=
  ∀ p ∈ requests.filterMap Request.pair?, ∀ q ∈ requests.filterMap Request.pair?,
    Sha256.digest (p.1.keyBytes p.2) = Sha256.digest (q.1.keyBytes q.2) →
      p.1.keyBytes p.2 = q.1.keyBytes q.2

/-- The memo holds the outputs of what is kept, each once. -/
def Holds (memo : Memo) (parser : Script.Parser) (requests : List Request) : Prop :=
  ∃ ps : List (Module × Options), ps.Nodup ∧ (∀ p, p ∈ ps ↔ IsKept requests p) ∧
    memo.entries = ps.map fun p => (p.1.key p.2, p.1.lower p.2 parser)

variable {parser : Script.Parser} {requests : List Request} {p : Module × Options}

theorem isKept_concat {r : Request} :
    IsKept (requests ++ [r]) p ↔ r = .lower p.1 p.2 ∨ r ≠ .clear ∧ IsKept requests p := by
  constructor
  · rintro ⟨before, later, same, unclear⟩
    rcases eq_nil_or_concat later with rfl | ⟨later, last, rfl⟩
    · exact .inl (append_inj_right' same rfl |> List.cons.inj).1
    · rw [concat_eq_append, ← cons_append, ← append_assoc] at same
      obtain ⟨rfl, lasts⟩ := append_inj' same rfl
      obtain ⟨rfl, _⟩ := List.cons.inj lasts
      refine .inr ⟨?_, before, later, rfl, fun cleared => unclear (by simp [cleared])⟩
      rintro rfl
      exact unclear (by simp)
  · rintro (rfl | ⟨unclear, before, later, rfl, kept⟩)
    · exact ⟨requests, [], rfl, not_mem_nil⟩
    · refine ⟨before, later ++ [r], by simp, ?_⟩
      simp only [mem_append, mem_singleton, not_or]
      exact ⟨kept, fun same => unclear same.symm⟩

theorem mem_of_isKept (kept : IsKept requests p) : p ∈ requests.filterMap Request.pair? := by
  obtain ⟨before, later, rfl, _⟩ := kept
  simp [Request.pair?]

theorem HaveOwnDigests.of_append {before rest : List Request}
    (own : HaveOwnDigests (before ++ rest)) : HaveOwnDigests before := by
  intro p member q member' same
  rw [HaveOwnDigests, filterMap_append] at own
  exact own p (mem_append_left _ member) q (mem_append_left _ member') same

theorem HaveOwnDigests.eq_of_key_eq (own : HaveOwnDigests requests) {q : Module × Options}
    (member : p ∈ requests.filterMap Request.pair?) (member' : q ∈ requests.filterMap Request.pair?)
    (same : p.1.key p.2 = q.1.key q.2) : p = q := by
  obtain ⟨modules, options⟩ := Module.eq_of_key_eq (own p member q member') same
  exact Prod.ext modules options

theorem lookup_map_iff {α β : Type} (key : α → String) (value : α → β) {as : List α} {a : α} {b : β}
    (own : ∀ c ∈ as, key c = key a → c = a) :
    (as.map fun c => (key c, value c)).lookup (key a) = some b ↔ a ∈ as ∧ value a = b := by
  induction as with
  | nil => simp
  | cons c as ih =>
    rw [forall_mem_cons] at own
    rw [map_cons, List.lookup_cons]
    by_cases same : key a = key c
    · obtain rfl := own.1 same.symm
      simp
    · have other : a ≠ c := fun equal => same (equal ▸ rfl)
      have differs : (key a == key c) = false := beq_false_of_ne same
      rw [differs, ih own.2, mem_cons, or_iff_right other]

/-- What a memo returns is kept, and what is kept is returned. -/
theorem Holds.get?_iff {memo : Memo} (holds : memo.Holds parser requests) (m : Module)
    (options : Options)
    (own : ∀ p, IsKept requests p → p.1.key p.2 = m.key options → p = (m, options))
    (output : ModuleOutcome) :
    memo.get? m options = some output ↔
      IsKept requests (m, options) ∧ m.lower options parser = output := by
  obtain ⟨ps, _, kept, entries⟩ := holds
  rw [get?, entries, ← kept]
  exact lookup_map_iff (fun p => p.1.key p.2) (fun p => p.1.lower p.2 parser) (a := (m, options))
    fun p member => own p ((kept p).mp member)

theorem HaveOwnDigests.key_isOwn {m : Module} {options : Options} {rest : List Request} {r : Request}
    (own : HaveOwnDigests (requests ++ r :: rest)) (names : r.pair? = some (m, options)) :
    ∀ p, IsKept requests p → p.1.key p.2 = m.key options → p = (m, options) := by
  intro p kept same
  apply own.eq_of_key_eq (q := (m, options)) _ _ same
  · rw [filterMap_append]
    exact mem_append_left _ (mem_of_isKept kept)
  · simp [names]

/-- Lowering through a memo gives the output of lowering. -/
theorem Holds.fst_getOrLower {memo : Memo} (holds : memo.Holds parser requests) {m : Module}
    {options : Options} (own : HaveOwnDigests (requests ++ [.lower m options])) :
    (memo.getOrLower m options parser).1 = m.lower options parser := by
  have found := holds.get?_iff m options (own.key_isOwn rfl)
  unfold getOrLower
  split
  next output stored => exact ((found output).mp stored).2.symm
  next => rfl

theorem Holds.step {memo : Memo} {r : Request} (holds : memo.Holds parser requests)
    (own : HaveOwnDigests (requests ++ [r])) :
    (memo.step parser r).Holds parser (requests ++ [r]) := by
  obtain ⟨ps, distinct, kept, entries⟩ := id holds
  cases r with
  | get m options =>
    exact ⟨ps, distinct, fun p => by simp [isKept_concat, kept], entries⟩
  | clear =>
    exact ⟨[], nodup_nil, fun p => by simp [isKept_concat], rfl⟩
  | lower m options =>
    have found := holds.get?_iff m options (own.key_isOwn rfl)
    have added : ∀ p, IsKept (requests ++ [.lower m options]) p ↔
        p = (m, options) ∨ IsKept requests p := by
      intro p
      rw [isKept_concat, Request.lower.injEq, Prod.ext_iff]
      simp [eq_comm]
    cases output : memo.get? m options with
    | some output' =>
      -- nothing changes, and the pair was kept before
      have before := ((found output').mp output).1
      refine ⟨ps, distinct, fun p => ?_, by simp [Memo.step, getOrLower, output, entries]⟩
      rw [kept, added]
      exact ⟨.inr, fun either => either.elim (fun same => same ▸ before) id⟩
    | none =>
      have fresh : (m, options) ∉ ps := by
        intro member
        have stored := (found (m.lower options parser)).mpr ⟨(kept _).mp member, rfl⟩
        rw [output] at stored
        cases stored
      refine ⟨(m, options) :: ps, nodup_cons.mpr ⟨fresh, distinct⟩, fun p => ?_,
        by simp [Memo.step, getOrLower, output, entries]⟩
      rw [mem_cons, kept, added]

theorem holds_after (parser : Script.Parser) (requests : List Request)
    (own : HaveOwnDigests requests) :
    (after parser requests).Holds parser requests := by
  induction requests using List.reverseRecOn with
  | nil =>
    refine ⟨[], nodup_nil, fun p => ?_, rfl⟩
    simp [IsKept]
  | append_singleton requests r ih =>
    rw [after, foldl_append]
    exact (ih own.of_append).step own

theorem Holds.size {memo : Memo} (holds : memo.Holds parser requests) :
    memo.size = {p | IsKept requests p}.ncard := by
  classical
  obtain ⟨ps, distinct, kept, entries⟩ := holds
  have listed : {p | IsKept requests p} = (ps.toFinset : Set (Module × Options)) := by
    ext p
    simp [kept]
  rw [Memo.size, entries, length_map, listed, Set.ncard_coe_finset,
    toFinset_card_of_nodup distinct]

/-- A memo is transparent.  The bytes that are digested say which module and options they are made
    of.  If no two of them have the same digest, then at every point of a sequence of requests:
    lowering through the memo gives the output of lowering, asking for an output gives it exactly
    if it is kept, and the memo holds as many outputs as are kept. -/
theorem isTransparent (parser : Script.Parser) :
    (∀ (m m' : Module) (o o' : Options), m.keyBytes o = m'.keyBytes o' → m = m' ∧ o = o') ∧
    ∀ requests : List Request, HaveOwnDigests requests → ∀ before rest,
      requests = before ++ rest →
        (after parser before).size = {p | IsKept before p}.ncard ∧
        (∀ m options later, rest = .lower m options :: later →
          ((after parser before).getOrLower m options parser).1 = m.lower options parser) ∧
        ∀ m options later, rest = .get m options :: later → ∀ output,
          (after parser before).get? m options = some output ↔
            IsKept before (m, options) ∧ m.lower options parser = output := by
  refine ⟨fun _ _ _ _ => Module.keyBytes_inj, ?_⟩
  rintro _ own before rest rfl
  have holds := holds_after parser before own.of_append
  refine ⟨holds.size, ?_, ?_⟩
  · rintro m options later rfl
    rw [append_cons] at own
    exact holds.fst_getOrLower own.of_append
  · rintro m options later rfl
    exact holds.get?_iff m options (own.key_isOwn rfl)

/-! A page that is lowered with two sets of options. -/

namespace TwoOptions

def page : Module := ⟨"", [{ name := "Page", render := {} }]⟩

/-- Options that differ from the default in one field. -/
def serial : Options := { parallel := false }

/-- After the memo is cleared, the page is lowered with one of the options only. -/
def session : List Request :=
  [.lower page {}, .lower page serial, .clear, .lower page {}, .get page {}, .get page serial]

theorem digest_ne : Sha256.digest (page.keyBytes {}) ≠ Sha256.digest (page.keyBytes serial) := by
  simp only [Module.keyBytes, Json.bytes_eq_flatMap]
  decide +kernel

theorem haveOwnDigests : HaveOwnDigests session := by
  have named : ∀ p ∈ session.filterMap Request.pair?, p = (page, {}) ∨ p = (page, serial) := by
    intro p member
    simp only [session, Request.pair?, filterMap_cons, filterMap_nil, mem_cons,
      not_mem_nil, or_false] at member
    grind
  intro p member q member' same
  rcases named p member with rfl | rfl <;> rcases named q member' with rfl | rfl
  · rfl
  · exact absurd same digest_ne
  · exact absurd same.symm digest_ne
  · rfl

theorem not_isKept_serial : ¬IsKept (session.take 5) (page, serial) := by
  have split : session.take 5 =
      session.take 2 ++ [.clear] ++ [.lower page {}] ++ [.get page {}] := rfl
  rw [split, isKept_concat, isKept_concat, isKept_concat]
  simp [serial]

end TwoOptions

theorem isTransparent_twoOptions :
    HaveOwnDigests TwoOptions.session ∧
    (after Script.parser (TwoOptions.session.take 5)).size =
      {p | IsKept (TwoOptions.session.take 5) p}.ncard ∧
    ((after Script.parser (TwoOptions.session.take 1)).getOrLower TwoOptions.page TwoOptions.serial).1 =
      TwoOptions.page.lower TwoOptions.serial ∧
    (after Script.parser (TwoOptions.session.take 4)).get? TwoOptions.page {} =
      some (TwoOptions.page.lower {}) ∧
    (after Script.parser (TwoOptions.session.take 5)).get? TwoOptions.page TwoOptions.serial = none := by
  have own := TwoOptions.haveOwnDigests
  have run := fun k => (isTransparent Script.parser).2 TwoOptions.session own (TwoOptions.session.take k)
    (TwoOptions.session.drop k) (take_append_drop k _).symm
  refine ⟨own, (run 5).1, (run 1).2.1 _ _ _ rfl, ?_, ?_⟩
  · exact ((run 4).2.2 _ _ _ rfl _).mpr ⟨⟨TwoOptions.session.take 3, [], rfl, by simp⟩, rfl⟩
  · apply Option.eq_none_iff_forall_ne_some.mpr
    intro output stored
    exact TwoOptions.not_isKept_serial (((run 5).2.2 _ _ _ rfl output).mp stored).1

end Memo

end ReactiveView
