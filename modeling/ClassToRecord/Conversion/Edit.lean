import ClassToRecord.Fingerprint.Preconditions
import ClassToRecord.Patch.Unified
import ClassToRecord.Record.Rebuild
import ClassToRecord.Rename.Apply

namespace ClassToRecord

/-- Why an edit is not made. -/
inductive EditError where
  /-- The candidate does not fit the declaration as it is now. -/
  | structural (error : ShapeError)
  /-- Declarations are not what they were. -/
  | stale (mismatches : List Mismatch)
  | runtime (failure : Failure)
deriving DecidableEq, Repr

namespace EditError

def message : EditError → String
  | .structural error => "structural inconsistency: " ++ error.message
  | .stale mismatches =>
    "precondition mismatch: " ++ "; ".intercalate (mismatches.map Mismatch.message)
  | .runtime failure => "runtime error: " ++ failure.outermost

def causes : EditError → List String
  | .runtime failure => failure.layers
  | _ => []

/-- Whether the state of the project is the reason. -/
def isAbort : EditError → Bool
  | .runtime _ => false
  | _ => true

end EditError

/-- What an edit has done. -/
structure EditSummary where
  renamedElements : Nat
  rewrittenSites : Nat
  components : Nat
deriving DecidableEq, Repr

namespace Preconditions

/-- Refuses if anything that was captured has changed. -/
def verify (pre : Preconditions) (p : Project) : Except EditError Unit :=
  match pre.mismatches p with
  | [] => .ok ()
  | mismatches => .error (.stale mismatches)

end Preconditions

namespace Project

/-- The project after all renames and with the record in the place of the class. -/
def convert (p : Project) (c : Candidate) (plan : RenamePlan) (usages : List Usage) :
    Except EditError (Project × EditSummary) := do
  let run := p.applyRenames plan usages
  let rewrittenSites ← run.result.mapError EditError.runtime
  let record ← (run.project.rebuildRecord c).mapError EditError.structural
  let converted ← (during (.replacing c.declaration)
    (run.project.replaceDeclaration c.declaration record)).mapError EditError.runtime
  .ok (converted,
    { renamedElements := plan.size, rewrittenSites, components := record.components.length })

/-- Converts the class, after a look at the preconditions if there are any. -/
def applyConversion (p : Project) (c : Candidate) (plan : RenamePlan) (usages : List Usage)
    (pre? : Option Preconditions) : Except EditError (Project × EditSummary) := do
  match pre? with
  | none => p.convert c plan usages
  | some pre =>
    pre.verify p
    p.convert c plan usages

/-- The patch section for one declaration, empty if its text stays the same. -/
def patchSection (old new : Declaration) : String :=
  if old.render = new.render then ""
  else
    "diff --git a/" ++ old.file ++ " b/" ++ old.file ++ "\n" ++ Patch.unified old.render new.render

/-- The difference between two states of a project, in the order of its declarations. -/
def patchTo (before after : Project) : String :=
  String.join (before.declarationIds.map fun id =>
    match before.declaration? id, after.declaration? id with
    | some old, some new => patchSection old new
    | _, _ => "")

/-- The patch that a conversion would make. -/
def previewConversion (p : Project) (c : Candidate) (plan : RenamePlan) (usages : List Usage) :
    Except EditError String := do
  let (converted, _) ← p.convert c plan usages
  .ok (p.patchTo converted)

end Project

end ClassToRecord
