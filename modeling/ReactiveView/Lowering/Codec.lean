import ReactiveView.Decl.Decode
import ReactiveView.Decl.Encode
import ReactiveView.Lowering.Module

/-!
# Options and outcomes in JSON

How options, lowered components and module outputs are written, and how the first two are read.
-/

namespace ReactiveView

open Json (ofUInt32 ofStrings)
open Json.Doc

/-! ## Writing -/

def Options.encode (o : Options) : Json :=
  .obj [("filePath", .str o.filePath), ("partialUpdateMode", .bool o.partialUpdateMode),
    ("parallel", .bool o.parallel)]

def BranchSite.encode (s : BranchSite) : Json :=
  .obj [("site", ofUInt32 s.site), ("method", .str s.method),
    ("branchIds", .arr (s.branchIds.map ofUInt32)), ("location", s.location.encode)]

def BranchRegistry.encode (r : BranchRegistry) : Json :=
  .obj [("sites", .arr (r.sites.map BranchSite.encode))]

def LoweredComponent.encode (c : LoweredComponent) : Json :=
  .obj [("decl", c.decl.encode), ("branchRegistry", c.branchRegistry.encode),
    ("provided", ofStrings c.provided)]

def Outcome.encode (o : Outcome) : Json :=
  match o.result with
  | .ok c => .obj [("name", .str o.name), ("lowered", c.encode)]
  | .error d => .obj [("name", .str o.name), ("error", d.report.encode)]

def ModuleOutcome.encode (o : ModuleOutcome) : Json :=
  .obj [("filePath", .str o.filePath), ("components", .arr (o.components.map Outcome.encode))]

/-- Whether two outputs are the same.  Outputs are told apart by what they are written as. -/
def ModuleOutcome.same (a b : ModuleOutcome) : Bool := a.encode.same b.encode

/-! ## Reading -/

def Options.decode? (d : Json.Doc) : Option Options := do
  match ← fields? ["filePath", "partialUpdateMode", "parallel"] d with
  | [filePath, partialUpdateMode, parallel] =>
    return {
      filePath := ← orElse "" string? filePath
      partialUpdateMode := ← orElse true bool? partialUpdateMode
      parallel := ← orElse true bool? parallel }
  | _ => none

def BranchSite.decode? (d : Json.Doc) : Option BranchSite := do
  match ← fields? ["site", "method", "branchIds", "location"] d with
  | [site, method, branchIds, location] =>
    return {
      site := ← required uint32? site
      method := ← required string? method
      branchIds := ← required (list? uint32?) branchIds
      location := ← required Location.decode? location }
  | _ => none

def BranchRegistry.decode? (d : Json.Doc) : Option BranchRegistry := do
  match ← fields? ["sites"] d with
  | [sites] => return ⟨← required (list? BranchSite.decode?) sites⟩
  | _ => none

def LoweredComponent.decode? (d : Json.Doc) : Option LoweredComponent := do
  match ← fields? ["decl", "branchRegistry", "provided"] d with
  | [decl, branchRegistry, provided] =>
    return {
      decl := ← required Component.decode? decl
      branchRegistry := ← required BranchRegistry.decode? branchRegistry
      provided := ← required Json.Doc.strings? provided }
  | _ => none

end ReactiveView
