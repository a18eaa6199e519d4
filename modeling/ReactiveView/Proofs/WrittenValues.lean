import Mathlib.Data.List.Nodup
import ReactiveView.Json.Record

/-!
# Values as they are written

A document writes a value if it says the same, with the members of each object in any order
(`Doc.Writes`).  Reading a record or a tagged record from a document that writes it gives its parts
(`Doc.Writes.fields?`, `Doc.Writes.tagged?`).  A value and the documents that write it have the same
levels of containers.
-/

namespace ReactiveView.Json

open List

/-! ## Levels -/

mutual

/-- How many levels of containers a value has. -/
def nesting : Json → Nat
  | .arr items => 1 + itemsNesting items
  | .obj members => 1 + membersNesting members
  | .null | .bool _ | .num _ | .str _ => 0

/-- The levels of the deepest item. -/
def itemsNesting : List Json → Nat
  | [] => 0
  | v :: vs => max v.nesting (itemsNesting vs)

/-- The levels of the deepest member. -/
def membersNesting : List (String × Json) → Nat
  | [] => 0
  | (_, v) :: ms => max v.nesting (membersNesting ms)

end

/-- A list has the levels of its deepest item. -/
theorem deepest_le_iff {α : Type} {levels : α → Nat} {deepest : List α → Nat} (nil : deepest [] = 0)
    (cons : ∀ a as, deepest (a :: as) = max (levels a) (deepest as)) {as : List α} {h : Nat} :
    deepest as ≤ h ↔ ∀ a ∈ as, levels a ≤ h := by
  induction as with
  | nil => simp [nil]
  | cons a as ih => rw [cons, Nat.max_le, ih, forall_mem_cons]

namespace Doc

/-! ## Documents for a value -/

mutual

/-- A document says what a value is, with the members of objects in any order. -/
inductive Writes : Json → Doc → Prop
  | null : Writes .null .null
  | bool (b : Bool) : Writes (.bool b) (.bool b)
  | num (n : Number) : Writes (.num n) (.num n)
  | str (s : String) : Writes (.str s) (.str s)
  | arr {items : List Json} {docs : List Doc} (each : WritesItems items docs) :
      Writes (.arr items) (.arr docs)
  | obj {members : List (String × Json)} {written docs : List (Option String × Doc)}
      (each : WritesMembers members written) (order : written.Perm docs) :
      Writes (.obj members) (.obj docs)

/-- Documents say what the items of an array are. -/
inductive WritesItems : List Json → List Doc → Prop
  | nil : WritesItems [] []
  | cons {v : Json} {d : Doc} {vs : List Json} {ds : List Doc} (head : Writes v d)
      (tail : WritesItems vs ds) : WritesItems (v :: vs) (d :: ds)

/-- Documents say what the members of an object are, in the same order. -/
inductive WritesMembers : List (String × Json) → List (Option String × Doc) → Prop
  | nil : WritesMembers [] []
  | cons {key : String} {v : Json} {d : Doc} {ms : List (String × Json)}
      {ds : List (Option String × Doc)} (head : Writes v d) (tail : WritesMembers ms ds) :
      WritesMembers ((key, v) :: ms) ((some key, d) :: ds)

end

mutual

theorem writes_toDoc : ∀ v : Json, Writes v v.toDoc
  | .null => .null
  | .bool b => .bool b
  | .num n => .num n
  | .str s => .str s
  | .arr items => .arr (writesItems_toDoc items)
  | .obj members => .obj (writesMembers_toDoc members) (.refl _)

theorem writesItems_toDoc : ∀ items : List Json, WritesItems items (itemsToDoc items)
  | [] => .nil
  | v :: vs => .cons (writes_toDoc v) (writesItems_toDoc vs)

theorem writesMembers_toDoc : ∀ members : List (String × Json),
    WritesMembers members (membersToDoc members)
  | [] => .nil
  | (_, v) :: ms => .cons (writes_toDoc v) (writesMembers_toDoc ms)

end

/-! ## Members -/

variable {docs : List (Option String × Doc)} {members : List (String × Json)} {d : Doc}

theorem membersHeight_perm {docs' : List (Option String × Doc)} (perm : docs.Perm docs') :
    membersHeight docs = membersHeight docs' := by
  induction perm with
  | nil => rfl
  | cons entry _ ih => simp only [membersHeight, ih]
  | swap first second rest =>
    simp only [membersHeight]
    omega
  | trans _ _ first second => exact first.trans second

/-- Where a key stands once, or stands nowhere, the order does not matter, and where it stands twice
    it is refused in any order. -/
theorem lookup?_perm (key : String) {docs' : List (Option String × Doc)} (perm : docs.Perm docs') :
    lookup? key docs = lookup? key docs' := by
  unfold lookup?
  have same := perm.filter fun entry => entry.1 = some key
  generalize docs.filter (fun entry => entry.1 = some key) = found at same ⊢
  generalize docs'.filter (fun entry => entry.1 = some key) = found' at same ⊢
  match found, found', same with
  | [], _, same => rw [nil_perm.mp same]
  | [_], _, same => rw [singleton_perm.mp same]
  | _ :: _ :: _, [], same => cases perm_nil.mp same
  | _ :: _ :: _, [_], same => cases perm_singleton.mp same
  | _ :: _ :: _, _ :: _ :: _, _ => rfl

theorem WritesMembers.keys (writes : WritesMembers members docs) :
    docs.map (·.1) = members.map fun m => some m.1 := by
  induction members generalizing docs with
  | nil =>
    cases writes
    rfl
  | cons m ms ih =>
    cases writes with
    | cons _ tail => simp [ih tail]

theorem lookup?_of_mem {key : String} (distinct : (docs.map (·.1)).Nodup)
    (member : (some key, d) ∈ docs) : lookup? key docs = some (some d) := by
  have others : docs.filter (fun entry => entry.1 = some key) = [(some key, d)] := by
    induction docs with
    | nil => cases member
    | cons entry docs ih =>
      rw [map_cons, nodup_cons] at distinct
      rcases mem_cons.mp member with rfl | later
      · -- the key stands nowhere else
        rw [filter_cons_of_pos (by simp), filter_eq_nil_iff.mpr]
        intro other isOther same
        exact distinct.1 (mem_map.mpr ⟨other, isOther, of_decide_eq_true same⟩)
      · have different : entry.1 ≠ some key :=
          fun same => distinct.1 (same ▸ mem_map_of_mem later)
        rw [filter_cons_of_neg (by simpa using different), ih distinct.2 later]
  rw [lookup?, others]

theorem mapM_lookup? {names : List String} {all : List (Option String × Doc)}
    (keys : docs.map (·.1) = names.map some)
    (found : ∀ key d, (some key, d) ∈ docs → lookup? key all = some (some d)) :
    names.mapM (lookup? · all) = some (docs.map fun entry => some entry.2) := by
  induction names generalizing docs with
  | nil =>
    rw [map_eq_nil_iff.mp keys]
    rfl
  | cons name names ih =>
    obtain ⟨⟨_, d⟩, docs, rfl, rfl, rest⟩ := map_eq_cons_iff.mp keys
    have others := ih rest fun key d member => found key d (.tail _ member)
    simp [found name d mem_cons_self, others]

theorem WritesMembers.values (writes : WritesMembers members docs) :
    WritesItems (members.map (·.2)) (docs.map (·.2)) := by
  induction members generalizing docs with
  | nil =>
    cases writes
    exact .nil
  | cons m ms ih =>
    cases writes with
    | cons head tail => exact .cons head (ih tail)

/-! ## Records -/

/-- The fields of a record are found, whatever their order. -/
theorem fields?_obj {names : List String} {written : List (Option String × Doc)}
    (keys : written.map (·.1) = names.map some) (distinct : names.Nodup)
    (order : written.Perm docs) :
    Doc.fields? names (.obj docs) = some (written.map fun entry => some entry.2) := by
  have keyed : (written.map (·.1)).Nodup := by
    rw [keys]
    exact distinct.map (f := some) fun _ _ => Option.some.inj
  have named : docs.all (·.1.isSome) = true := by
    rw [all_eq_true]
    intro entry member
    have isKey := mem_map_of_mem (f := (·.1)) (order.mem_iff.mpr member)
    rw [keys] at isKey
    obtain ⟨name, _, same⟩ := mem_map.mp isKey
    rw [← same]
    rfl
  simp only [Doc.fields?, named, if_true]
  apply mapM_lookup? keys
  intro key d member
  rw [← lookup?_perm key order]
  exact lookup?_of_mem keyed member

theorem Writes.fields? {members : List (String × Json)} {d : Doc} (writes : Writes (.obj members) d)
    (names : List String) (listed : members.map (·.1) = names) (distinct : names.Nodup) :
    ∃ docs, Doc.fields? names d = some (docs.map some) ∧
      WritesItems (members.map (·.2)) docs := by
  cases writes with
  | @obj _ written docs each order =>
    refine ⟨written.map (·.2), ?_, each.values⟩
    rw [fields?_obj (by rw [each.keys, ← listed, map_map]; rfl) distinct order, map_map]
    rfl

/-! ## Documents with a value -/

theorem exists_itemsToJson?_iff {docs : List Doc} :
    (∃ ws, itemsToJson? docs = some ws) ↔ ∀ d ∈ docs, ∃ w, d.toJson? = some w := by
  induction docs with
  | nil => simp [itemsToJson?]
  | cons d ds ih =>
    rw [forall_mem_cons, ← ih]
    constructor
    · rintro ⟨ws, all⟩
      obtain ⟨w, first, rest⟩ := Option.bind_eq_some_iff.mp all
      obtain ⟨others, tail, _⟩ := Option.bind_eq_some_iff.mp rest
      exact ⟨⟨w, first⟩, others, tail⟩
    · rintro ⟨⟨w, first⟩, ws, others⟩
      exact ⟨w :: ws, by simp [itemsToJson?, first, others]⟩

theorem exists_membersToJson?_iff :
    (∃ ws, membersToJson? docs = some ws) ↔
      ∀ entry ∈ docs, (∃ key, entry.1 = some key) ∧ ∃ w, entry.2.toJson? = some w := by
  induction docs with
  | nil => simp [membersToJson?]
  | cons entry docs ih =>
    obtain ⟨key, d⟩ := entry
    rw [forall_mem_cons, ← ih]
    constructor
    · rintro ⟨ws, all⟩
      obtain ⟨name, named, rest⟩ := Option.bind_eq_some_iff.mp all
      obtain ⟨w, first, rest⟩ := Option.bind_eq_some_iff.mp rest
      obtain ⟨others, tail, _⟩ := Option.bind_eq_some_iff.mp rest
      exact ⟨⟨⟨name, named⟩, w, first⟩, others, tail⟩
    · rintro ⟨⟨⟨name, rfl⟩, w, first⟩, ws, others⟩
      exact ⟨(name, w) :: ws, by simp [membersToJson?, first, others]⟩

mutual

theorem Writes.exists_toJson? : ∀ (v : Json) (d : Doc), Writes v d → ∃ w, d.toJson? = some w
  | .null, _, .null => ⟨_, rfl⟩
  | .bool _, _, .bool _ => ⟨_, rfl⟩
  | .num _, _, .num _ => ⟨_, rfl⟩
  | .str _, _, .str _ => ⟨_, rfl⟩
  | .arr items, _, .arr each => by
    obtain ⟨ws, all⟩ := exists_itemsToJson?_iff.mpr (WritesItems.exists_toJson? items _ each)
    exact ⟨.arr ws, by rw [toJson?, all, Option.map_some]⟩
  | .obj members, _, .obj each order => by
    obtain ⟨ws, all⟩ := exists_membersToJson?_iff.mpr fun entry member =>
      WritesMembers.exists_toJson? members _ each entry (order.mem_iff.mpr member)
    exact ⟨.ofMembers ws, by rw [toJson?, all, Option.map_some]⟩

theorem WritesItems.exists_toJson? : ∀ (items : List Json) (docs : List Doc),
    WritesItems items docs → ∀ d ∈ docs, ∃ w, d.toJson? = some w
  | [], _, .nil => nofun
  | v :: vs, _, .cons head tail =>
    forall_mem_cons.mpr ⟨Writes.exists_toJson? v _ head, WritesItems.exists_toJson? vs _ tail⟩

theorem WritesMembers.exists_toJson? : ∀ (members : List (String × Json))
    (docs : List (Option String × Doc)), WritesMembers members docs →
    ∀ entry ∈ docs, (∃ key, entry.1 = some key) ∧ ∃ w, entry.2.toJson? = some w
  | [], _, .nil => nofun
  | (key, v) :: ms, _, .cons head tail =>
    forall_mem_cons.mpr
      ⟨⟨⟨key, rfl⟩, Writes.exists_toJson? v _ head⟩, WritesMembers.exists_toJson? ms _ tail⟩

end

mutual

theorem Writes.height : ∀ (v : Json) (d : Doc), Writes v d → d.height = v.nesting
  | .null, _, .null => rfl
  | .bool _, _, .bool _ => rfl
  | .num _, _, .num _ => rfl
  | .str _, _, .str _ => rfl
  | .arr items, _, .arr each => by
    rw [Doc.height, nesting, WritesItems.height items _ each]
  | .obj members, _, .obj each order => by
    rw [Doc.height, nesting, ← membersHeight_perm order, WritesMembers.height members _ each]

theorem WritesItems.height : ∀ (items : List Json) (docs : List Doc),
    WritesItems items docs → itemsHeight docs = itemsNesting items
  | [], _, .nil => rfl
  | v :: vs, _, .cons head tail => by
    rw [itemsHeight, itemsNesting, Writes.height v _ head, WritesItems.height vs _ tail]

theorem WritesMembers.height : ∀ (members : List (String × Json))
    (docs : List (Option String × Doc)), WritesMembers members docs →
    membersHeight docs = membersNesting members
  | [], _, .nil => rfl
  | (_, v) :: ms, _, .cons head tail => by
    rw [membersHeight, membersNesting, Writes.height v _ head, WritesMembers.height ms _ tail]

end

/-! ## Tagged records -/

/-- A tagged record is its variant and a document that writes the rest. -/
theorem Writes.tagged? {tag variant : String}
    (writes : Writes (.obj ((tag, .str variant) :: members)) d) (variants : List String)
    (nested : Bool) (known : variant ∈ variants) (untagged : tag ∉ members.map (·.1)) :
    ∃ rest, Doc.tagged? tag variants nested d = some (variant, rest) ∧
      Writes (.obj members) rest := by
  obtain ⟨w, value⟩ := Writes.exists_toJson? _ _ writes
  cases writes with
  | @obj _ written docs each order =>
    cases each with
    | @cons _ _ _ _ others head tail =>
      cases head
      -- the other members have other keys
      have apart : ∀ entry ∈ others, entry.1 ≠ some tag := by
        intro entry member same
        have isKey := mem_map_of_mem (f := (·.1)) member
        rw [tail.keys, same] at isKey
        obtain ⟨m, isMember, named⟩ := mem_map.mp isKey
        exact untagged (Option.some.inj named ▸ mem_map_of_mem isMember)
      have found : lookup? tag docs = some (some (.str variant)) := by
        rw [← lookup?_perm tag order, lookup?, filter_cons_of_pos (by simp),
          filter_eq_nil_iff.mpr]
        intro entry member same
        exact apart entry member (of_decide_eq_true same)
      refine ⟨.obj (docs.filter (·.1 ≠ some tag)), ?_, .obj tail ?_⟩
      · simp [Doc.tagged?, value, found, variant?, known]
      · have kept : others.filter (·.1 ≠ some tag) = others :=
          filter_eq_self.mpr fun entry member => by simpa using apart entry member
        rw [← kept, ← filter_cons_of_neg (a := (some tag, Doc.str variant)) (by simp)]
        exact order.filter _

theorem Writes.unit? (writes : Writes (.obj members) d) : Doc.unit? d = some () := by
  cases writes
  rfl

end Doc

/-! ## Values in normal order -/

mutual

/-- No object has a key twice, and all numbers are natural numbers of one word. -/
def IsTidy : Json → Prop
  | .null | .bool _ | .str _ => True
  | .num n => ∃ k : Nat, k ≤ maxWord ∧ n = .int k
  | .arr items => ItemsTidy items
  | .obj members => (members.map (·.1)).Nodup ∧ MembersTidy members

/-- Every item is tidy. -/
def ItemsTidy : List Json → Prop
  | [] => True
  | v :: vs => v.IsTidy ∧ ItemsTidy vs

/-- Every member is tidy. -/
def MembersTidy : List (String × Json) → Prop
  | [] => True
  | (_, v) :: ms => v.IsTidy ∧ MembersTidy ms

end

theorem itemsTidy_iff {items : List Json} : ItemsTidy items ↔ ∀ v ∈ items, v.IsTidy := by
  induction items with
  | nil => simp [ItemsTidy]
  | cons v vs ih => simp [ItemsTidy, ih]

variable {ms : List (String × Json)}

theorem insertMember_perm {key : String} {v : Json} (fresh : key ∉ ms.map (·.1)) :
    (insertMember key v ms).Perm ((key, v) :: ms) := by
  induction ms with
  | nil => exact .refl _
  | cons m ms ih =>
    obtain ⟨k, w⟩ := m
    rw [map_cons, mem_cons, not_or] at fresh
    rw [insertMember]
    split
    · exact .refl _
    · rw [if_neg fresh.1]
      exact ((ih fresh.2).cons _).trans (.swap ..)

/-- Distinct members are sorted without losing any. -/
theorem sortMembers_perm (distinct : (ms.map (·.1)).Nodup) : (sortMembers ms).Perm ms := by
  -- what is sorted so far has other keys than what is to come
  have sorting : ∀ (ms sorted : List (String × Json)), ((sorted ++ ms).map (·.1)).Nodup →
      (ms.foldl (fun sorted m => insertMember m.1 m.2 sorted) sorted).Perm (sorted ++ ms) := by
    intro ms
    induction ms with
    | nil => simp
    | cons m ms ih =>
      intro sorted distinct
      have moved : (m :: sorted ++ ms).Perm (sorted ++ m :: ms) := perm_middle.symm
      have fresh : m.1 ∉ sorted.map (·.1) := by
        intro member
        rw [← (moved.map (·.1)).nodup_iff, cons_append, map_cons,
          nodup_cons, map_append] at distinct
        exact distinct.1 (mem_append_left _ member)
      have inserted := (insertMember_perm (v := m.2) fresh).append_right ms
      refine (ih _ ?_).trans (inserted.trans moved)
      exact ((inserted.trans moved).map (·.1)).nodup_iff.mpr distinct
  exact sorting ms [] distinct

theorem membersToDoc_eq_map (ms : List (String × Json)) :
    membersToDoc ms = ms.map fun m => (some m.1, m.2.toDoc) := by
  induction ms with
  | nil => rfl
  | cons m ms ih => rw [membersToDoc, ih, map_cons]

theorem Doc.WritesMembers.names {ws : List (String × Json)}
    (writes : WritesMembers ms (membersToDoc ws)) : ws.map (·.1) = ms.map (·.1) := by
  have keys := writes.keys
  rw [membersToDoc_eq_map, map_map] at keys
  have named := congrArg (List.filterMap id) keys
  simpa [filterMap_map, Function.comp_def] using named

mutual

/-- Sorting the members of all objects in a tidy value leaves a document that writes it. -/
theorem IsTidy.toJson?_toDoc : ∀ v : Json, v.IsTidy →
    ∃ w, v.toDoc.toJson? = some w ∧ Doc.Writes v w.toDoc
  | .null, _ => ⟨_, rfl, .null⟩
  | .bool b, _ => ⟨_, rfl, .bool b⟩
  | .num n, _ => ⟨_, rfl, .num n⟩
  | .str s, _ => ⟨_, rfl, .str s⟩
  | .arr items, tidy => by
    obtain ⟨ws, value, writes⟩ := IsTidy.itemsToJson?_toDoc items tidy
    exact ⟨.arr ws, by rw [toDoc, Doc.toJson?, value, Option.map_some], .arr writes⟩
  | .obj ms, tidy => by
    obtain ⟨ws, value, writes⟩ := IsTidy.membersToJson?_toDoc ms tidy.2
    refine ⟨.ofMembers ws, by rw [toDoc, Doc.toJson?, value, Option.map_some], .obj writes ?_⟩
    rw [membersToDoc_eq_map, membersToDoc_eq_map]
    exact ((sortMembers_perm (writes.names ▸ tidy.1)).map _).symm

theorem IsTidy.itemsToJson?_toDoc : ∀ items : List Json, ItemsTidy items →
    ∃ ws, Doc.itemsToJson? (itemsToDoc items) = some ws ∧ Doc.WritesItems items (itemsToDoc ws)
  | [], _ => ⟨[], rfl, .nil⟩
  | v :: vs, tidy => by
    obtain ⟨w, first, writes⟩ := IsTidy.toJson?_toDoc v tidy.1
    obtain ⟨ws, rest, others⟩ := IsTidy.itemsToJson?_toDoc vs tidy.2
    exact ⟨w :: ws, by simp [itemsToDoc, Doc.itemsToJson?, first, rest], .cons writes others⟩

theorem IsTidy.membersToJson?_toDoc : ∀ ms : List (String × Json), MembersTidy ms →
    ∃ ws, Doc.membersToJson? (membersToDoc ms) = some ws ∧ Doc.WritesMembers ms (membersToDoc ws)
  | [], _ => ⟨[], rfl, .nil⟩
  | (key, v) :: ms, tidy => by
    obtain ⟨w, first, writes⟩ := IsTidy.toJson?_toDoc v tidy.1
    obtain ⟨ws, rest, others⟩ := IsTidy.membersToJson?_toDoc ms tidy.2
    exact ⟨(key, w) :: ws, by simp [membersToDoc, Doc.membersToJson?, first, rest],
      .cons writes others⟩

end

end ReactiveView.Json
