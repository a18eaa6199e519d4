import ReactiveView.Json.Reader

/-!
# Records in JSON documents

How structured data is read from a document.  A record is an object, or an array of its fields in
order whose last fields may be left off; fields that the record does not have are skipped.  A
tagged record names its variant in one of its members; written as an array, the variant comes
first.  A known field or a tag that stands twice is an error.
-/

namespace ReactiveView.Json.Doc

/-! ## Scalars -/

def string? : Doc → Option String
  | .str s => some s
  | _ => none

def bool? : Doc → Option Bool
  | .bool b => some b
  | _ => none

/-- An integer from 0 to `2^32 - 1`. -/
def uint32? : Doc → Option UInt32
  | .num (.int i) => if 0 ≤ i ∧ i < 4294967296 then some (UInt32.ofNat i.toNat) else none
  | _ => none

def list? {α : Type} (item? : Doc → Option α) : Doc → Option (List α)
  | .arr items => items.mapM item?
  | _ => none

/-! ## Fields -/

/-- The value of a key; fails if the key stands twice. -/
def lookup? (key : String) (members : List (Option String × Doc)) : Option (Option Doc) :=
  match members.filter (·.1 = some key) with
  | [] => some none
  | [(_, d)] => some (some d)
  | _ => none

/-- The fields of a record, in the order of `names`; a field that is missing is `none`. -/
def fields? (names : List String) : Doc → Option (List (Option Doc))
  | .obj members =>
    if members.all (·.1.isSome) then names.mapM (lookup? · members) else none
  | .arr items =>
    if items.length ≤ names.length then
      some (items.map some ++ List.replicate (names.length - items.length) none)
    else none
  | _ => none

def required {α : Type} (value? : Doc → Option α) : Option Doc → Option α
  | none => none
  | some d => value? d

def orElse {α : Type} (default : α) (value? : Doc → Option α) : Option Doc → Option α
  | none => some default
  | some d => value? d

def optional {α : Type} (value? : Doc → Option α) : Option Doc → Option (Option α)
  | none => some none
  | some .null => some none
  | some d => (value? d).map some

/-! ## Tagged records -/

/-- The variant that a tag names.  Inside another tagged record its position will do. -/
def variant? (variants : List String) (nested : Bool) : Doc → Option String
  | .str s => if variants.contains s then some s else none
  | .num (.int i) => if nested ∧ 0 ≤ i then variants[i.toNat]? else none
  | _ => none

/-- The variant of a tagged record and the record without its tag.  All of it has to have a
    value, also the fields that are skipped. -/
def tagged? (tag : String) (variants : List String) (nested : Bool) (d : Doc) :
    Option (String × Doc) := do
  let _ ← d.toJson?
  match d with
  | .obj members =>
    let variant ← variant? variants nested (← ← lookup? tag members)
    return (variant, .obj (members.filter (·.1 ≠ some tag)))
  | .arr (first :: rest) => return (← variant? variants nested first, .arr rest)
  | _ => none

/-- A record without fields: an object, whatever its members, or an empty array. -/
def unit? : Doc → Option Unit
  | .obj _ => some ()
  | .arr [] => some ()
  | _ => none

/-- One of several names, also written as an object from the name to nothing. -/
def choice? (names : List String) : Doc → Option String
  | .str s => if names.contains s then some s else none
  | .obj [(some s, .null)] => if names.contains s then some s else none
  | .obj [(some s, .obj [])] => if names.contains s then some s else none
  | _ => none

/-! ## Size -/

mutual

def height : Doc → Nat
  | .arr items => 1 + itemsHeight items
  | .obj members => 1 + membersHeight members
  | _ => 0

def itemsHeight : List Doc → Nat
  | [] => 0
  | d :: ds => max d.height (itemsHeight ds)

def membersHeight : List (Option String × Doc) → Nat
  | [] => 0
  | (_, d) :: ds => max d.height (membersHeight ds)

end

end ReactiveView.Json.Doc
