import ClassToRecord.Conflict
import ClassToRecord.Fingerprint.Preconditions
import ClassToRecord.Json.Syntax
import ClassToRecord.Rename.Search
import ClassToRecord.Usage

namespace ClassToRecord

open Json

instance : JsonCodec ReferenceSite where
  encode s := .obj (entry "ref_id" s.ref ++ entry "element" s.element ++
    entry "declaration" s.declaration ++ entry "file" s.file ++
    entryIfSome "collision" s.collision?)
  decode? held json := do
    let r ← json.record? ["ref_id", "element", "declaration", "file", "collision"]
    let ref ← r.required held "ref_id"
    let element ← r.required held "element"
    let declaration ← r.required held "declaration"
    let file ← r.required held "file"
    let collision? ← r.optional held "collision"
    some { ref, element, declaration, file, collision? }

/-- Reads a usage whose kind is known. All that stands beside the kind has been held back. -/
def Usage.ofKind? (kind : String) (json : Json) : Option Usage :=
  match kind with
  | "direct_field_reference" => do
    let r ← json.record? ["field"]
    let field ← r.required true "field"
    some (.directFieldReference field)
  | "accessor_rename_reference" => do
    let r ← json.record? ["element", "new_name", "site"]
    let element ← r.required true "element"
    let newName ← r.required true "new_name"
    let site? ← r.optional true "site"
    some (.accessorRename element newName site?)
  | "encapsulation_risk" => do
    let r ← json.record? ["element", "message"]
    let element ← r.required true "element"
    let message ← r.required true "message"
    some (.encapsulationRisk element message)
  | _ => none

instance : JsonCodec Usage where
  encode usage :=
    let kind := entry "kind" usage.kind.name
    match usage with
    | .directFieldReference field => .obj (kind ++ entry "field" field)
    | .accessorRename element newName site? =>
      .obj (kind ++ entry "element" element ++ entry "new_name" newName ++
        entryIfSome "site" site?)
    | .encapsulationRisk element message =>
      .obj (kind ++ entry "element" element ++ entry "message" message)
  decode? _
    | .arr (.str kind :: parts) => Usage.ofKind? kind (.arr parts)
    | .obj fields =>
      match fields.lookup "kind" with
      | some (.str kind) => Usage.ofKind? kind (.obj fields)
      | _ => none
    | _ => none

instance : JsonCodec Conflict where
  encode c := .obj (entry "element" c.element ++ entry "messages" c.messages)
  decode? held json := do
    let r ← json.record? ["element", "messages"]
    let element ← r.required held "element"
    let messages ← r.required held "messages"
    some { element, messages }

instance : JsonCodec ConflictReport where
  encode report := JsonCodec.encode report.conflicts
  decode? held json := (JsonCodec.decode? held json).map ConflictReport.mk

instance : JsonCodec DeclarationDigest where
  encode d := .obj (entry "declaration" d.declaration ++ entry "file" d.file ++
    entry "sha256" d.sha256)
  decode? held json := do
    let r ← json.record? ["declaration", "file", "sha256"]
    let declaration ← r.required held "declaration"
    let file ← r.required held "file"
    let sha256 ← r.required held "sha256"
    some { declaration, file, sha256 }

instance : JsonCodec Preconditions where
  encode pre := .obj (entry "digests" pre.digests)
  decode? held json := do
    let r ← json.record? ["digests"]
    (r.required held "digests").map Preconditions.mk

/-- A pair is written as an array of two. -/
instance : JsonCodec (ElementId × String) where
  encode pair := .arr [JsonCodec.encode pair.1, JsonCodec.encode pair.2]
  decode? held
    | .arr [id, name] => do
      let id ← JsonCodec.decode? held id
      let name ← JsonCodec.decode? held name
      some (id, name)
    | _ => none

/-- A plan is written as its entries in order. An element that is listed twice keeps its first place
    and its last name. -/
instance : JsonCodec RenamePlan where
  encode plan := JsonCodec.encode plan.entries
  decode? held json := (JsonCodec.decode? held json).map OrderedMap.ofList

end ClassToRecord
