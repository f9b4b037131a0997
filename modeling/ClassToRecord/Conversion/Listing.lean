import ClassToRecord.Project.Description
import ClassToRecord.Rename.Search
import ClassToRecord.Report.Basic

namespace ClassToRecord

def codeSpan (s : String) : String := "`" ++ s ++ "`"

/-- The lines of a list, or a remark if it is empty. -/
def linesOr (remark : String) (lines : List String) : String :=
  if lines.isEmpty then remark else String.join lines

namespace ConflictReport

def conflictSection (p : Project) (c : Conflict) : String :=
  "### " ++ p.describe c.element ++ "\n\n" ++
    String.join (c.messages.map fun message => "- " ++ message ++ "\n") ++ "\n"

/-- The conflicts under a heading for each element. -/
def toMarkdown (report : ConflictReport) (p : Project) : String :=
  "# Conflicts\n\n" ++
    linesOr "_No conflicts._\n" (report.conflicts.map (conflictSection p))

end ConflictReport

def UsageKind.heading : UsageKind → String
  | .directFieldReference => "Direct field references"
  | .accessorRename => "Accessor renames"
  | .encapsulationRisk => "Encapsulation risks"

namespace ReferenceSite

def listing (site : ReferenceSite) (p : Project) : String :=
  let conflict := match site.collision? with
    | none => ""
    | some message => "    - conflict: " ++ message ++ "\n"
  "  - " ++ codeSpan site.file ++ " in " ++ p.describe site.declaration ++
    " (" ++ site.ref.label ++ ")\n" ++ conflict

end ReferenceSite

def Usage.listing (usage : Usage) (p : Project) : String :=
  match usage with
  | .directFieldReference field => "- " ++ p.describe field ++ "\n"
  | .accessorRename element newName none =>
    "- rename " ++ p.describe element ++ " to " ++ codeSpan newName ++ "\n"
  | .accessorRename _ _ (some site) => site.listing p
  | .encapsulationRisk _ message => "- " ++ message ++ "\n"

/-- The usages of one kind under a heading with their number, or nothing if there are none. -/
def usageSection (p : Project) (usages : List Usage) (kind : UsageKind) : String :=
  let group := usages.filter (·.kind = kind)
  if group.isEmpty then ""
  else
    "## " ++ kind.heading ++ " (" ++ group.length.repr ++ ")\n\n" ++
      String.join (group.map (·.listing p)) ++ "\n"

/-- What a conversion is about to do: the renames, then the usages kind by kind. -/
def usageView (p : Project) (plan : RenamePlan) (usages : List Usage) : String :=
  let renames := plan.entries.map fun (element, newName) =>
    "- " ++ p.describe element ++ " → " ++ codeSpan newName ++ "\n"
  "# Convert to record\n\n## Elements\n\n" ++
    linesOr "_Nothing to rename._\n" renames ++ "\n" ++
    String.join ([UsageKind.directFieldReference, .accessorRename, .encapsulationRisk].map
      (usageSection p usages))

namespace ConversionReport

private def conflictLines (report : ConversionReport) : List String :=
  report.conflicts.conflicts.flatMap fun c =>
    c.messages.map fun message => "- " ++ codeSpan c.element.label ++ " " ++ message ++ "\n"

private def durationLine (run : RunInfo) : String :=
  match run.endedAt? with
  | none => ""
  | some ended => "- Duration: " ++ (ended.millisecondsSince run.startedAt).repr ++ " ms\n"

private def renameLine (r : RenameRecord) : String :=
  "- " ++ codeSpan r.element.label ++ " " ++ codeSpan r.oldName ++ " → " ++
    codeSpan r.newName ++ "\n"

/-- A report for people. -/
def toMarkdown (report : ConversionReport) : String :=
  let counts := report.usageCounts
  "# recordfix conversion\n\n" ++
    "- Declaration: " ++ codeSpan report.declaration.label ++ "\n" ++
    "- Status: " ++ codeSpan report.status.name ++ "\n" ++
    "- Usages: " ++ counts.directFieldReferences.repr ++ " direct field references, " ++
    counts.accessorRenames.repr ++ " accessor renames, " ++
    counts.referenceSites.repr ++ " reference sites, " ++
    counts.encapsulationRisks.repr ++ " encapsulation risks\n" ++
    durationLine report.run ++ "\n## Renames\n\n" ++
    linesOr "_No renames._\n" (report.renames.map renameLine) ++
    (if report.conflicts.isEmpty then ""
      else "\n## Conflicts\n\n" ++ String.join (conflictLines report))

end ConversionReport

end ClassToRecord
