import ClassToRecord.Json.Usage
import ClassToRecord.Report.Basic

namespace ClassToRecord

open Json

/-- Counts are written as whole numbers below this one. -/
def countBound : Nat := 18446744073709551616

instance : JsonCodec Timestamp where
  encode t := .str t.render
  decode? _
    | .str s => Timestamp.ofString? s
    | _ => none

def ConversionStatus.ofName? : String → Option ConversionStatus
  | "pending" => some .pending
  | "applied" => some .applied
  | "aborted" => some .aborted
  | "cancelled" => some .cancelled
  | _ => none

instance : JsonCodec ConversionStatus where
  encode status := .str status.name
  decode? held json := (json.choice? held).bind ConversionStatus.ofName?

instance : JsonCodec RunInfo where
  encode run := .obj (entry "started_at" run.startedAt ++ entryIfSome "ended_at" run.endedAt?)
  decode? held json := do
    let r ← json.record? ["started_at", "ended_at"]
    let startedAt ← r.required held "started_at"
    let endedAt? ← r.optional held "ended_at"
    some { startedAt, endedAt? }

instance : JsonCodec RenameRecord where
  encode r := .obj (entry "element" r.element ++ entry "old_name" r.oldName ++
    entry "new_name" r.newName)
  decode? held json := do
    let r ← json.record? ["element", "old_name", "new_name"]
    let element ← r.required held "element"
    let oldName ← r.required held "old_name"
    let newName ← r.required held "new_name"
    some { element, oldName, newName }

instance : JsonCodec UsageCounts where
  encode c := .obj [
    ("direct_field_references", .int c.directFieldReferences),
    ("accessor_renames", .int c.accessorRenames),
    ("reference_sites", .int c.referenceSites),
    ("encapsulation_risks", .int c.encapsulationRisks)]
  decode? _ json := do
    let r ← json.record?
      ["direct_field_references", "accessor_renames", "reference_sites", "encapsulation_risks"]
    let directFieldReferences ← (← r.get? "direct_field_references").nat? countBound
    let accessorRenames ← (← r.get? "accessor_renames").nat? countBound
    let referenceSites ← (← r.get? "reference_sites").nat? countBound
    let encapsulationRisks ← (← r.get? "encapsulation_risks").nat? countBound
    some { directFieldReferences, accessorRenames, referenceSites, encapsulationRisks }

instance : JsonCodec ConversionReport where
  encode r := .obj (entry "schema" r.schema ++ entry "declaration" r.declaration ++
    entry "status" r.status ++ entry "run" r.run ++ entry "renames" r.renames ++
    entry "usage_counts" r.usageCounts ++ entryIfAny "conflicts" r.conflicts.conflicts)
  decode? held json := do
    let r ← json.record?
      ["schema", "declaration", "status", "run", "renames", "usage_counts", "conflicts"]
    let schema ← r.required held "schema"
    let declaration ← r.required held "declaration"
    let status ← r.required held "status"
    let run ← r.required held "run"
    let renames ← r.defaulted held "renames" []
    let usageCounts ← r.defaulted held "usage_counts" {}
    let conflicts ← r.defaulted held "conflicts" ConflictReport.empty
    some { schema, declaration, status, run, renames, usageCounts, conflicts }

end ClassToRecord
