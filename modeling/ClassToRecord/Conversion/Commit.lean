import ClassToRecord.Conversion.Edit
import ClassToRecord.Conversion.Listing
import ClassToRecord.Conversion.Settings
import ClassToRecord.Usage.Analysis

namespace ClassToRecord

/-- Why a conversion ends without a result. -/
inductive ConversionError where
  | conflictsDetected (conflicts : ConflictReport)
  | cancelled
  | edit (error : EditError)
  | internal (failure : Failure)
deriving DecidableEq, Repr

namespace ConversionError

def message : ConversionError → String
  | .conflictsDetected conflicts =>
    "conversion aborted, " ++ conflicts.messageCount.repr ++ " conflict(s): " ++
      "; ".intercalate conflicts.messages
  | .cancelled => "conversion cancelled"
  | .edit error => error.message
  | .internal failure => failure.message

def causes : ConversionError → List String
  | .edit error => error.causes
  | .internal failure => failure.layers
  | _ => []

/-- Whether the run has stopped on purpose. -/
def isAbort : ConversionError → Bool
  | .conflictsDetected _ | .cancelled => true
  | .edit error => error.isAbort
  | .internal _ => false

/-- The status of a run that ends like this. -/
def status : ConversionError → ConversionStatus
  | .cancelled => .cancelled
  | _ => .aborted

end ConversionError

/-- A conversion that has been looked into and may now be carried out. -/
structure PreparedConversion where
  candidate : Candidate
  usages : List Usage
  plan : RenamePlan
  conflicts : ConflictReport
  preconditions : Preconditions
  report : ConversionReport

namespace Project

def currentName (p : Project) (element : ElementId) : String :=
  (((p.method? element).map Method.name).or ((p.field? element).map Field.name)).getD ""

def renameRecords (p : Project) (plan : RenamePlan) : List RenameRecord :=
  plan.entries.map fun (element, newName) => ⟨element, p.currentName element, newName⟩

/-- The declarations that hold what a conversion rewrites. -/
def touched (c : Candidate) (usages : List Usage) : List ElementId :=
  c.declaration :: (sitesOf usages).map ReferenceSite.declaration

/-- Collects the usages, analyzes the conflicts and takes the digests. Changes nothing. -/
def prepare (p : Project) (candidate : Candidate) (settings : Settings) (now : Timestamp) :
    Except ConversionError PreparedConversion := do
  let collected ← (during (.collecting (p.describe candidate.declaration))
    (p.collect candidate settings.searchWeakenedVisibility)).mapError ConversionError.internal
  let conflicts := p.analyze candidate collected.usages collected.plan
  let preconditions ← (Preconditions.capture p (touched candidate collected.usages)).mapError
    fun failure => .edit (.runtime failure)
  let report := { ConversionReport.start candidate.declaration now with
    renames := p.renameRecords collected.plan
    usageCounts := UsageCounts.ofUsages collected.usages
    conflicts }
  .ok { candidate, usages := collected.usages, plan := collected.plan, conflicts, preconditions,
        report }

end Project

/-- What a person is asked to confirm. -/
structure Question where
  conflicts : ConflictReport
  rendered : String

/-- The end of a run: its result, the project afterwards, and the questions that were asked. -/
structure RunOutcome where
  result : Except ConversionError ConversionReport
  project : Project
  asked : List Question

namespace PreparedConversion

def usageView (prepared : PreparedConversion) (p : Project) : String :=
  ClassToRecord.usageView p prepared.plan prepared.usages

def conflictView (prepared : PreparedConversion) (p : Project) : String :=
  prepared.conflicts.toMarkdown p

/-- The questions to ask before the edit, and whether it may begin after the answers. -/
def consult (prepared : PreparedConversion) (p : Project) (settings : Settings)
    (confirm : Question → Except Failure Bool) :
    List Question × Except ConversionError Unit :=
  match settings.decide prepared.conflicts with
  | .proceed => ([], .ok ())
  | .fail => ([], .error (.conflictsDetected prepared.conflicts))
  | .confirm =>
    let question := ⟨prepared.conflicts, prepared.conflictView p⟩
    match confirm question with
    | .error failure => ([question], .error (.internal failure))
    | .ok false => ([question], .error .cancelled)
    | .ok true => ([question], .ok ())

/-- Carries out a conversion. It succeeds as a whole or leaves the project as it was. -/
def commit (prepared : PreparedConversion) (p : Project) (settings : Settings)
    (confirm : Question → Except Failure Bool) (now : Timestamp) : RunOutcome :=
  let (asked, permission) := prepared.consult p settings confirm
  match permission with
  | .error error => ⟨.error error, p, asked⟩
  | .ok () =>
    let pre? := if settings.checkPreconditions then some prepared.preconditions else none
    match p.applyConversion prepared.candidate prepared.plan prepared.usages pre? with
    | .error error => ⟨.error (.edit error), p, asked⟩
    | .ok (converted, _) => ⟨.ok (prepared.report.close .applied now), converted, asked⟩

/-- The patch that carrying out the conversion would make. -/
def preview (prepared : PreparedConversion) (p : Project) : Except ConversionError String :=
  (p.previewConversion prepared.candidate prepared.plan prepared.usages).mapError .edit

end PreparedConversion

namespace Project

/-- Prepares a conversion and carries it out. -/
def runConversion (p : Project) (candidate : Candidate) (settings : Settings)
    (confirm : Question → Except Failure Bool) (now : Timestamp) : RunOutcome :=
  match p.prepare candidate settings now with
  | .error error => ⟨.error error, p, []⟩
  | .ok prepared => prepared.commit p settings confirm now

end Project

end ClassToRecord
