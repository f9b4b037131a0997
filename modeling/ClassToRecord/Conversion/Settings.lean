import ClassToRecord.Conflict

namespace ClassToRecord

/-- Whether a person is there to answer. -/
inductive ExecutionMode where
  | interactive
  | unattended
deriving DecidableEq, Repr, Inhabited

namespace ExecutionMode

def name : ExecutionMode → String
  | .interactive => "interactive"
  | .unattended => "unattended"

def ofName? : String → Option ExecutionMode
  | "interactive" => some .interactive
  | "unattended" => some .unattended
  | _ => none

end ExecutionMode

structure Settings where
  /-- Whether to report members that the record makes more visible. -/
  searchWeakenedVisibility : Bool := true
  mode : ExecutionMode := .interactive
  /-- Whether an unattended run goes on in spite of conflicts. -/
  ignoreConflicts : Bool := false
  /-- Whether declarations that have changed since the preparation stop a conversion. -/
  checkPreconditions : Bool := true
deriving DecidableEq, Repr, Inhabited

def Settings.unattended : Settings := { mode := .unattended }

inductive Decision where
  | proceed
  | confirm
  | fail
deriving DecidableEq, Repr

/-- What to do about conflicts: nothing if there are none, otherwise it depends on who is there. -/
def Settings.decide (settings : Settings) (conflicts : ConflictReport) : Decision :=
  if conflicts.isEmpty then .proceed
  else
    match settings.mode with
    | .interactive => .confirm
    | .unattended => if settings.ignoreConflicts then .proceed else .fail

end ClassToRecord
