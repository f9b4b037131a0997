import ClassToRecord.Conflict
import ClassToRecord.Report.Timestamp
import ClassToRecord.Usage

namespace ClassToRecord

inductive ConversionStatus where
  | pending
  | applied
  | aborted
  | cancelled
deriving DecidableEq, Repr, Inhabited

def ConversionStatus.name : ConversionStatus → String
  | .pending => "pending"
  | .applied => "applied"
  | .aborted => "aborted"
  | .cancelled => "cancelled"

structure RunInfo where
  startedAt : Timestamp
  endedAt? : Option Timestamp := none
deriving DecidableEq, Repr, Inhabited

structure RenameRecord where
  element : ElementId
  oldName : String
  newName : String
deriving DecidableEq, Repr, Inhabited

structure UsageCounts where
  directFieldReferences : Nat := 0
  accessorRenames : Nat := 0
  referenceSites : Nat := 0
  encapsulationRisks : Nat := 0
deriving DecidableEq, Repr, Inhabited

namespace UsageCounts

/-- Counts one usage. A rename with a site is a reference and not a rename of its own. -/
def add (counts : UsageCounts) : Usage → UsageCounts
  | .directFieldReference _ =>
    { counts with directFieldReferences := counts.directFieldReferences + 1 }
  | .accessorRename _ _ none => { counts with accessorRenames := counts.accessorRenames + 1 }
  | .accessorRename _ _ (some _) => { counts with referenceSites := counts.referenceSites + 1 }
  | .encapsulationRisk _ _ => { counts with encapsulationRisks := counts.encapsulationRisks + 1 }

def ofUsages (usages : List Usage) : UsageCounts := usages.foldl add {}

end UsageCounts

/-- What a host gets to know about one conversion. -/
structure ConversionReport where
  schema : String
  declaration : ElementId
  status : ConversionStatus
  run : RunInfo
  renames : List RenameRecord := []
  usageCounts : UsageCounts := {}
  conflicts : ConflictReport := {}
deriving DecidableEq, Repr, Inhabited

namespace ConversionReport

def currentSchema : String := "recordfix.report.v1"

/-- A report on a conversion that has just begun. -/
def start (declaration : ElementId) (now : Timestamp) : ConversionReport :=
  { schema := currentSchema, declaration, status := .pending, run := { startedAt := now } }

/-- The report with its outcome. -/
def close (report : ConversionReport) (status : ConversionStatus) (now : Timestamp) :
    ConversionReport :=
  { report with status, run := { report.run with endedAt? := some now } }

end ConversionReport

end ClassToRecord
