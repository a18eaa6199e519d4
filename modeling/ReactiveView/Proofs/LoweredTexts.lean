import ReactiveView.Lowering.Interchange
import ReactiveView.Proofs.AcceptedComponents
import ReactiveView.Proofs.LoweredLevels
import ReactiveView.Proofs.RememberedOutputs

/-!
# Texts of lowered components

What is remembered of earlier modules does not change the text of an output
(`Interchange.lowerModuleIn_after`).
A component in the output of `Interchange.lowerModule` is printed by `Interchange.printComponent` if
its text has at most 127 levels, and is not read at all if it has more
(`Interchange.printComponent_of_lowerModule`).  Lowering may add two levels, so only module texts of
at most 125 levels can be relied on: there is a module of 126 levels that is lowered to a component
which is not read (`DeepPage.lowered_isMalformed`).
-/

namespace ReactiveView

open List
open Json (Doc nestingLimit)
open Json.Doc (list? height_of_tagged?)

/-! ## Reading what was encoded -/

theorem Interchange.read_compact {α : Type} {encode : α → Json} {decode? : Doc → Option α} {a : α}
    (survives : Json.Survives encode decode? a) (shallow : (encode a).nesting ≤ nestingLimit) :
    read decode? (encode a).compact = .ok a := by
  have decoded := survives.reads (Json.Doc.writes_toDoc _)
  rw [read, Json.read?_compact survives.tidy, Json.toDocAt_eq_toDoc _ 0 (by omega),
    Option.bind_some, decoded]

/-! ## Texts that are too deep -/

variable {depth : Nat} {v : Json}

/-- The fields of a record that is not too deep itself. -/
theorem Json.fields?_toDocAt {members : List (String × Json)} (shallow : depth < nestingLimit)
    (names : List String) (listed : members.map (·.1) = names) (distinct : names.Nodup) :
    Doc.fields? names ((Json.obj members).toDocAt depth) =
      some (members.map fun m => some (m.2.toDocAt (depth + 1))) := by
  rw [toDocAt, if_neg (by omega), Doc.fields?_obj _ distinct (.refl _), membersToDocAt_eq_map,
    map_map]
  · rfl
  · rw [membersToDocAt_eq_map, ← listed, map_map, map_map]
    rfl

theorem exists_of_list?_toDocAt {α : Type} {item? : Doc → Option α} {items : List Json}
    {as : List α} (read : list? item? ((Json.arr items).toDocAt depth) = some as)
    (member : v ∈ items) : ∃ a, item? (v.toDocAt (depth + 1)) = some a := by
  rw [Json.toDocAt] at read
  split at read
  · cases read
  · rw [list?, Json.itemsToDocAt_eq_map] at read
    induction items generalizing as with
    | nil => cases member
    | cons w ws ih =>
      rw [map_cons, mapM_cons] at read
      obtain ⟨a, first, read⟩ := Option.bind_eq_some_iff.mp read
      obtain ⟨rest, others, _⟩ := Option.bind_eq_some_iff.mp read
      rcases mem_cons.mp member with rfl | later
      · exact ⟨a, first⟩
      · exact ih later others

/-- A tagged record is read only as a whole. -/
theorem Member.nesting_le_of_decode? {m : Member}
    (read : Member.decode? (v.toDocAt depth) = some m) : v.nesting ≤ nestingLimit - depth := by
  obtain ⟨_, tagged, _⟩ := Option.bind_eq_some_iff.mp read
  exact Json.nesting_le_of_toJson? v depth (height_of_tagged? tagged).1

theorem Stmt.nesting_le_of_decode? {nested : Bool} {s : Stmt}
    (read : Stmt.decode? nested (v.toDocAt depth) = some s) : v.nesting ≤ nestingLimit - depth := by
  rw [Stmt.decode?] at read
  generalize (v.toDocAt depth).height = levels at read
  cases levels with
  | zero => cases read
  | succ levels =>
    obtain ⟨_, tagged, _⟩ := Option.bind_eq_some_iff.mp read
    exact Json.nesting_le_of_toJson? v depth (height_of_tagged? tagged).1

theorem Render.nesting_le_of_decode? {r r' : Render} (shallow : depth < nestingLimit)
    (read : Render.decode? (r.encode.toDocAt depth) = some r') :
    Json.itemsNesting (Stmt.encodeAll r.body) ≤ nestingLimit - (depth + 2) := by
  rw [Render.decode?, Render.encode,
    Json.fields?_toDocAt shallow ["name", "body"] rfl (by simp)] at read
  simp only [List.map, Option.bind_eq_bind, Option.bind_some, Option.bind_eq_some_iff] at read
  obtain ⟨_, _, _, body, _⟩ := read
  rw [Stmt.encodeAll_eq_map]
  apply Json.itemsNesting_map_le
  intro s member
  obtain ⟨_, decoded⟩ := exists_of_list?_toDocAt body
    (by rw [Stmt.encodeAll_eq_map]; exact mem_map_of_mem member)
  exact Stmt.nesting_le_of_decode? decoded

theorem Component.nesting_le_of_decode? {c c' : Component} (shallow : depth + 1 < nestingLimit)
    (read : Component.decode? (c.encode.toDocAt depth) = some c') :
    (∀ m ∈ c.members, m.encode.nesting ≤ nestingLimit - (depth + 2)) ∧
      Json.itemsNesting (Stmt.encodeAll c.render.body) ≤ nestingLimit - (depth + 3) := by
  rw [Component.decode?, Component.encode, Json.fields?_toDocAt (by omega)
    ["name", "isEntry", "members", "render", "location"] rfl (by simp)] at read
  simp only [List.map, Option.bind_eq_bind, Option.bind_some, Option.bind_eq_some_iff] at read
  obtain ⟨_, _, _, _, _, members, _, render, _⟩ := read
  refine ⟨fun m member => ?_, Render.nesting_le_of_decode? shallow render⟩
  obtain ⟨_, decoded⟩ := exists_of_list?_toDocAt members (mem_map_of_mem member)
  exact Member.nesting_le_of_decode? decoded

/-- Members and statements are tagged records, so a component with one that is too deep is not
    read. -/
theorem LoweredComponent.nesting_le_of_decode? {c c' : LoweredComponent}
    (read : LoweredComponent.decode? (c.encode.toDocAt 0) = some c') :
    c.encode.nesting ≤ nestingLimit := by
  have limit : nestingLimit = 127 := rfl
  -- what is outside members and statements is of few levels
  rw [LoweredComponent.decode?, LoweredComponent.encode, Json.fields?_toDocAt (by decide)
    ["decl", "branchRegistry", "provided"] rfl (by simp)] at read
  simp only [List.map, Option.bind_eq_bind, Option.bind_some, Option.bind_eq_some_iff] at read
  obtain ⟨_, decl, _⟩ := read
  obtain ⟨members, body⟩ := Component.nesting_le_of_decode? (by decide) decl
  apply LoweredComponent.nesting_le (by decide)
  · intro m member
    have := members m member
    omega
  · omega

/-! ## Printing what was lowered -/

namespace Interchange

theorem printComponent_compact {c : LoweredComponent} {js : String} (prints : c.print = .ok js) :
    printComponent c.encode.compact =
      if c.encode.nesting ≤ nestingLimit then .ok js else .error .malformed := by
  split
  next shallow =>
    rw [printComponent, read_compact c.survives shallow]
    show c.print.mapError Failure.refused = _
    rw [prints]
    rfl
  next deep =>
    -- the text is still read, but a piece of its document has no value
    have unread : LoweredComponent.decode? (c.encode.toDocAt 0) = none :=
      Option.eq_none_iff_forall_ne_some.mpr fun c' decoded =>
        deep (LoweredComponent.nesting_le_of_decode? decoded)
    rw [printComponent, read, Json.read?_compact c.survives.tidy, Option.bind_some, unread]
    rfl

theorem print_of_mem_lowered {m : Module} {options : Options} {parser : Script.Parser}
    {c : LoweredComponent} (lowered : c ∈ (m.lower options parser).lowered) : ∃ js, c.print = .ok js := by
  obtain ⟨_, _, accepted⟩ := Module.exists_of_mem_lowered lowered
  obtain ⟨pieces, printed, _⟩ :=
    Printing.componentPieces_print (ModuleScope.bodies_areBracketed accepted)
  exact ⟨Printing.render pieces, by rw [LoweredComponent.print, printed]⟩

/-- Whatever was lowered before, the text is that of the output of lowering, which is remembered. -/
theorem lowerModuleIn_after {parser : Script.Parser} {requests : List Memo.Request}
    {module options : String} {m : Module} {o : Options}
    (decoded : read Module.decode? module = .ok m) (given : readOptions options = .ok o)
    (own : Memo.HaveOwnDigests (requests ++ [.lower m o])) :
    lowerModuleIn (Memo.after parser requests) module options parser =
      .ok ((m.lower o parser).encode.compact, Memo.after parser (requests ++ [.lower m o])) := by
  have output := (Memo.holds_after parser requests own.of_append).fst_getOrLower own
  have after : Memo.after parser (requests ++ [.lower m o]) =
      ((Memo.after parser requests).getOrLower m o parser).2 := by
    rw [Memo.after, foldl_append]
    rfl
  rw [lowerModuleIn, decoded, given, ← output, after]
  rfl

/-- The first module is lowered as if nothing were remembered. -/
theorem lowerModule_eq {parser : Script.Parser} {module options : String} {m : Module} {o : Options}
    (decoded : read Module.decode? module = .ok m) (given : readOptions options = .ok o) :
    lowerModule module options parser = .ok (m.lower o parser).encode.compact := by
  have own : Memo.HaveOwnDigests ([] ++ [.lower m o]) := by
    intro p member q member' _
    rw [mem_singleton.mp member, mem_singleton.mp member']
  have lowered : lowerModuleIn (Memo.after parser []) module options parser = _ :=
    lowerModuleIn_after decoded given own
  exact congrArg (Except.map (·.1)) lowered

end Interchange

/-! ## Texts inside texts -/

theorem Json.chars_infix_itemChars {items : List Json} (member : v ∈ items) :
    v.chars <:+: itemChars items := by
  induction items with
  | nil => cases member
  | cons w ws ih =>
    rw [itemChars_cons]
    rcases mem_cons.mp member with rfl | later
    · exact (prefix_append ..).isInfix
    · apply (ih later).trans
      cases ws with
      | nil => cases later
      | cons => exact ((suffix_cons ..).trans (suffix_append ..)).isInfix

theorem Json.chars_infix_memberChars {k : String} {ms : List (String × Json)}
    (member : (k, v) ∈ ms) : quote k.toList ++ ':' :: v.chars <:+: memberChars ms := by
  induction ms with
  | nil => cases member
  | cons m ms ih =>
    obtain ⟨l, w⟩ := m
    rw [memberChars_cons, ← cons_append, ← append_assoc]
    rcases mem_cons.mp member with same | later
    · cases same
      exact (prefix_append ..).isInfix
    · apply (ih later).trans
      cases ms with
      | nil => cases later
      | cons => exact ((suffix_cons ..).trans (suffix_append ..)).isInfix

theorem Json.infix_chars_of_mem {k : String} {ms : List (String × Json)} (member : (k, v) ∈ ms) :
    quote k.toList ++ ':' :: v.chars <:+: (Json.obj ms).chars :=
  (chars_infix_memberChars member).trans ⟨['{'], ['}'], rfl⟩

/-- Every lowered component stands in the text of the output. -/
theorem ModuleOutcome.lowered_infix {o : ModuleOutcome} {c : LoweredComponent}
    (lowered : c ∈ o.lowered) :
    Json.quote "lowered".toList ++ ':' :: c.encode.chars <:+: o.encode.chars := by
  obtain ⟨outcome, isOutcome, ok⟩ := mem_filterMap.mp lowered
  have result : outcome.result = .ok c := by
    cases same : outcome.result with
    | error d =>
      rw [same] at ok
      cases ok
    | ok c' =>
      rw [same] at ok
      cases ok
      rfl
  have inOutcome : Json.quote "lowered".toList ++ ':' :: c.encode.chars <:+:
      outcome.encode.chars := by
    rw [Outcome.encode, result]
    exact Json.infix_chars_of_mem (by simp)
  have inList : outcome.encode.chars <:+: (Json.arr (o.components.map Outcome.encode)).chars :=
    (Json.chars_infix_itemChars (mem_map_of_mem isOutcome)).trans ⟨['['], [']'], rfl⟩
  have inOutput : (Json.arr (o.components.map Outcome.encode)).chars <:+: o.encode.chars :=
    ((suffix_cons ..).trans (suffix_append ..)).isInfix.trans
      (Json.infix_chars_of_mem (k := "components") (by simp))
  exact inOutcome.trans (inList.trans inOutput)

/-! ## The two entry points together -/

/-- A text is lowered to the text of an output.  Every lowered component can be printed, and stands
    in the output with a text that is printed as the component is, unless it has more than 127
    levels; then it is not read.  That cannot happen if the module has at most 125 levels. -/
theorem Interchange.printComponent_of_lowerModule {parser : Script.Parser}
    {module options text : String} (accepted : lowerModule module options parser = .ok text) :
    ∃ d m o, Doc.read? module.toList = some d ∧ Module.decode? d = some m ∧
      readOptions options = .ok o ∧ text = (m.lower o parser).encode.compact ∧
      ∀ c ∈ (m.lower o parser).lowered,
        Json.quote "lowered".toList ++ ':' :: c.encode.compact.toList <:+: text.toList ∧
        (∃ js, c.print = .ok js ∧ printComponent c.encode.compact =
          if c.encode.nesting ≤ nestingLimit then .ok js else .error .malformed) ∧
        (d.height + 2 ≤ nestingLimit → c.encode.nesting ≤ nestingLimit) := by
  obtain ⟨m, o, decoded, given⟩ : ∃ m o, read Module.decode? module = .ok m ∧
      readOptions options = .ok o := by
    cases ran : lowerModuleIn {} module options parser with
    | error => rw [lowerModule, ran] at accepted; cases accepted
    | ok =>
      obtain ⟨m, decoded, ran⟩ := except_bind_ok_iff.mp ran
      obtain ⟨o, given, _⟩ := except_bind_ok_iff.mp ran
      exact ⟨m, o, decoded, given⟩
  obtain rfl := Except.ok.inj ((lowerModule_eq decoded given).symm.trans accepted)
  obtain ⟨d, document, decoded⟩ : ∃ d, Doc.read? module.toList = some d ∧
      Module.decode? d = some m := by
    rw [read] at decoded
    split at decoded
    next value =>
      cases decoded
      exact Option.bind_eq_some_iff.mp value
    next => cases decoded
  refine ⟨d, m, o, document, decoded, given, rfl, fun c lowered => ⟨?_, ?_, fun low => ?_⟩⟩
  · rw [Json.toList_compact, Json.toList_compact]
    exact ModuleOutcome.lowered_infix lowered
  · obtain ⟨js, prints⟩ := print_of_mem_lowered lowered
    exact ⟨js, prints, printComponent_compact prints⟩
  · have bound := Module.nesting_of_lowered decoded lowered
    have limit : nestingLimit = 127 := rfl
    omega

/-! ## A page with a deep body -/

namespace DeepPage

/-- An arm with conditionals inside each other, as short as it can be written. -/
def arm : Nat → Json
  | 0 => .obj [("condition", .null)]
  | n + 1 => .obj [("condition", .null),
      ("body", .arr [.obj [("type", .str "if"), ("arms", .arr [arm n])]])]

/-- A module whose page has a loop over conditionals. -/
def source (n : Nat) : Json :=
  .obj [("components", .arr [.obj [("name", .str "Page"), ("render", .obj [("body", .arr [
    .obj [("type", .str "for-each"), ("source", .str "rows"), ("itemVar", .str "row"),
      ("body", .arr [.obj [("type", .str "if"), ("arms", .arr [arm n])]])]])])]])]

theorem tidy_arm (n : Nat) : (arm n).IsTidy := by
  induction n with
  | zero => simp [arm, Json.IsTidy, Json.MembersTidy]
  | succ n ih => simp [arm, Json.IsTidy, Json.MembersTidy, Json.ItemsTidy, ih]

theorem tidy_source (n : Nat) : (source n).IsTidy := by
  simp [source, Json.IsTidy, Json.MembersTidy, Json.ItemsTidy, tidy_arm]

theorem exists_lowered {n h k : Nat} (nesting : (source n).nesting = h) (shallow : h ≤ nestingLimit)
    (lowers : (Module.decode? (source n).toDoc).map
      (fun m => (m.lower {}).lowered.map (·.encode.nesting)) = some [k]) :
    ∃ m c, Doc.read? (source n).compact.toList = some (source n).toDoc ∧
      Module.decode? (source n).toDoc = some m ∧
      Interchange.lowerModule (source n).compact "" = .ok (m.lower {}).encode.compact ∧
      (m.lower {}).lowered = [c] ∧ c.encode.nesting = k := by
  obtain ⟨m, decoded, levels⟩ := Option.map_eq_some_iff.mp lowers
  obtain ⟨c, single, level⟩ := map_eq_singleton_iff.mp levels
  have document := Json.read?_compact (tidy_source n)
  rw [Json.toDocAt_eq_toDoc _ 0 (by omega)] at document
  refine ⟨m, c, document, decoded, ?_, single, level⟩
  apply Interchange.lowerModule_eq
  · rw [Interchange.read, document, Option.bind_some, decoded]
  · rfl

end DeepPage

theorem Interchange.printComponent_of_lowerModule_deepPage :
    ∃ text, lowerModule (DeepPage.source 0).compact "" = .ok text ∧
      ∃ d m o, Doc.read? (DeepPage.source 0).compact.toList = some d ∧ Module.decode? d = some m ∧
        text = (m.lower o).encode.compact ∧
        ∀ c ∈ (m.lower o).lowered, ∃ js, printComponent c.encode.compact = .ok js := by
  obtain ⟨m, c, document, _, accepted, _⟩ := DeepPage.exists_lowered (n := 0) (h := 10) (k := 12)
    (by decide +kernel) (by decide) (by decide +kernel)
  refine ⟨_, accepted, ?_⟩
  obtain ⟨d, m', o, document', decoded, _, same, each⟩ := printComponent_of_lowerModule accepted
  refine ⟨d, m', o, document', decoded, same, fun c isLowered => ?_⟩
  obtain ⟨_, ⟨js, _, printed⟩, low⟩ := each c isLowered
  obtain rfl := Option.some.inj (document.symm.trans document')
  exact ⟨js, by rw [printed, if_pos (low (by decide +kernel))]⟩

/-- A text of 126 levels is lowered to a component that can be printed, but the text of the component
    is not read. -/
theorem DeepPage.lowered_isMalformed :
    ∃ d m c js, Doc.read? (source 29).compact.toList = some d ∧ d.height = 126 ∧
      Module.decode? d = some m ∧
      Interchange.lowerModule (source 29).compact "" = .ok (m.lower {}).encode.compact ∧
      c ∈ (m.lower {}).lowered ∧ c.print = .ok js ∧
      Interchange.printComponent c.encode.compact = .error .malformed := by
  obtain ⟨m, c, document, decoded, accepted, single, level⟩ := exists_lowered (n := 29) (h := 126)
    (k := 128) (by decide +kernel) (by decide) (by decide +kernel)
  have lowered : c ∈ (m.lower {}).lowered := by rw [single]; exact mem_singleton_self c
  obtain ⟨js, prints⟩ := Interchange.print_of_mem_lowered lowered
  refine ⟨_, m, c, js, document, by decide +kernel, decoded, accepted, lowered, prints, ?_⟩
  rw [Interchange.printComponent_compact prints, level]
  rfl

end ReactiveView
